/-
What the output of `svg_sanitize` is for another reader.

A kept attribute reads back as itself when it has a name and its value has no double quote.  Then the
output has the kept tags, in the sanitizer and in HTML alike, and is safe exactly when no character
reference hides a scheme.
-/
import Mathlib.Data.List.TakeWhile
import Look.Web.Svg

namespace Look

namespace Svg

open Http (Bytes toLower)
open Markup (lt gt slash equals doubleQuote singleQuote bang Tag tags tagsFrom State)

/-! ## What the output must be -/

def lowerChar (n : Nat) : Nat := if 65 ≤ n ∧ n ≤ 90 then n + 32 else n

def isSpaceChar (n : Nat) : Bool := n = 32 || (9 ≤ n && n ≤ 13)

/-- A script or data scheme, in any case and with white space in between. -/
def HasScheme (chars : List Nat) : Prop :=
  ∃ scheme ∈ [ascii "javascript:", ascii "vbscript:", ascii "data:"],
    scheme.map UInt8.toNat <:+: (chars.filter fun n => !isSpaceChar n).map lowerChar

/-- An attribute of a start tag that is safe. -/
structure SafeAttr (named : Bytes → Option (List Nat × Nat)) (name : Bytes) (a : Bytes × Bytes) :
    Prop where
  event : ¬ ascii "on" <+: a.1
  scheme : ¬ HasScheme (Markup.decode named a.2)
  use : name = ascii "use" → a.1 = ascii "href" ∨ a.1 = ascii "xlink:href" →
    (Markup.decode named a.2).head? = some 35

def Safe (named : Bytes → Option (List Nat × Nat)) (ts : List Tag) : Prop :=
  ∀ t ∈ ts, t.closing = false → t.name ∈ svgSafeElements ∧ ∀ a ∈ t.attrs, SafeAttr named t.name a

/-- Every kept attribute has a name, and a value without double quotes. -/
def WellQuoted (pieces : List Piece) : Prop :=
  ∀ closing name attrs slashed, Piece.tag closing name attrs slashed ∈ pieces →
    ∀ a ∈ attrs, a.1 ≠ [] ∧ doubleQuote ∉ a.2

/-- No kept attribute of a start tag has a scheme behind its character references. -/
def NoHidden (named : Bytes → Option (List Nat × Nat)) (pieces : List Piece) : Prop :=
  ∀ name attrs slashed, Piece.tag false name attrs slashed ∈ pieces →
    ∀ a ∈ attrs, ¬ HasScheme (Markup.decode named a.2)

/-! ## The pieces -/

structure GoodTag (name : Bytes) (attrs : List (Bytes × Bytes)) : Prop where
  safe : lower name ∈ svgSafeElements
  nameChars : ∀ c ∈ name, isElemChar c = true
  attrChars : ∀ a ∈ attrs, (∀ c ∈ a.1, isNameChar c = true) ∧ gt ∉ a.2
  kept : ∀ a ∈ attrs, keeps (lower name = ascii "use") a = true

/-- Text without brackets and tags of safe elements, up to a `<` that no `>` follows. -/
inductive Good : List Piece → Prop
  | nil : Good []
  | byte {c : UInt8} {ps : List Piece} : c ≠ lt → Good ps → Good (.byte c :: ps)
  | opened {ps : List Piece} : (∀ p ∈ ps, ∃ c, p = .byte c ∧ c ≠ gt) → Good (.byte lt :: ps)
  | tag {closing slashed : Bool} {name : Bytes} {attrs : List (Bytes × Bytes)} {ps : List Piece} :
      GoodTag name attrs → Good ps → Good (.tag closing name attrs slashed :: ps)

theorem readValue_mem (s : Bytes) :
    (∀ c ∈ (readValue s).1, c ∈ s) ∧ ∀ c ∈ (readValue s).2, c ∈ s := by
  cases s with
  | nil => exact ⟨nofun, nofun⟩
  | cons q s =>
    rw [readValue]
    split
    · exact ⟨fun c hc => List.mem_cons_of_mem _ ((List.takeWhile_sublist _).subset hc),
        fun c hc => List.mem_cons_of_mem _
          ((List.dropWhile_sublist _).subset ((List.drop_sublist _ _).subset hc))⟩
    · dsimp only
      exact ⟨fun c hc => (List.takeWhile_sublist _).subset hc,
        fun c hc => (List.dropWhile_sublist _).subset hc⟩

theorem readAttr_mem (s : Bytes) :
    (∀ c ∈ (readAttr s).1.1, isNameChar c = true) ∧ (∀ c ∈ (readAttr s).1.2, c ∈ s) ∧
      ∀ c ∈ (readAttr s).2, c ∈ s := by
  have hname : ∀ c ∈ s.takeWhile isNameChar, isNameChar c = true := fun c hc =>
    List.mem_takeWhile_imp hc
  have hrest : ∀ c ∈ s.dropWhile isNameChar, c ∈ s := fun c hc =>
    (List.dropWhile_sublist _).subset hc
  rw [readAttr]
  split
  · exact ⟨hname, nofun, nofun⟩
  · rename_i c rest h
    rw [h, List.forall_mem_cons] at hrest
    split
    · exact ⟨hname, fun d hd => hrest.2 d ((readValue_mem rest).1 d hd),
        fun d hd => hrest.2 d ((readValue_mem rest).2 d hd)⟩
    · exact ⟨hname, nofun, List.forall_mem_cons.mpr hrest⟩

theorem readAttrs_mem (turns : Nat) (s : Bytes) :
    ∀ a ∈ readAttrs turns s, (∀ c ∈ a.1, isNameChar c = true) ∧ ∀ c ∈ a.2, c ∈ s := by
  induction turns generalizing s with
  | zero => exact nofun
  | succ turns ih =>
    intro a ha
    have hrest : ∀ c ∈ s.dropWhile isSpace, c ∈ s := fun c hc =>
      (List.dropWhile_sublist _).subset hc
    rw [readAttrs] at ha
    split at ha
    · cases ha
    · rename_i c t h
      rw [h] at hrest
      split at ha
      · cases ha
      · obtain ⟨hname, hvalue, hbehind⟩ := readAttr_mem (c :: t)
        rcases List.mem_cons.mp ha with rfl | ha
        · exact ⟨hname, fun d hd => hrest d (hvalue d hd)⟩
        · obtain ⟨hn, hv⟩ := ih _ a ha
          exact ⟨hn, fun d hd => hrest d (hbehind d (hv d hd))⟩

/-- The tag of a safe element is good. -/
theorem keptTag_good {tag : Bytes} (hgt : gt ∉ tag) (hsafe : lower (elemRaw tag) ∈ svgSafeElements) :
    ∃ closing name attrs slashed,
      keptTag tag = .tag closing name attrs slashed ∧ GoodTag name attrs := by
  have hbody : ∀ c ∈ tagBody tag, c ∈ tag := by
    intro c hc
    rw [tagBody] at hc
    split at hc
    · exact (List.drop_sublist _ _).subset hc
    · exact hc
  refine ⟨_, _, _, _, rfl, hsafe, fun c hc => List.mem_takeWhile_imp hc, fun a ha => ?_, fun a ha =>
    (List.mem_filter.mp ha).2⟩
  obtain ⟨hname, hvalue⟩ := readAttrs_mem _ _ a (List.mem_filter.mp ha).1
  exact ⟨hname, fun hmem =>
    hgt (hbody _ ((List.dropWhile_sublist _).subset (hvalue gt hmem)))⟩

theorem svgPieces_open {turns : Nat} {s : Bytes} (h : gt ∉ s) :
    ∀ p ∈ svgPieces turns s, ∃ c, p = .byte c ∧ c ≠ gt := by
  induction turns generalizing s with
  | zero => exact nofun
  | succ turns ih =>
    cases s with
    | nil => exact nofun
    | cons c s =>
      rw [List.mem_cons, not_or] at h
      have hbyte : svgPieces (turns + 1) (c :: s) = .byte c :: svgPieces turns s := by
        rw [svgPieces, breakOn_single_none h.2]
        split <;> rfl
      rw [hbyte, List.forall_mem_cons]
      exact ⟨⟨c, rfl, Ne.symm h.1⟩, ih h.2⟩

theorem svgPieces_good (turns : Nat) (s : Bytes) : Good (svgPieces turns s) := by
  induction turns generalizing s with
  | zero => exact .nil
  | succ turns ih =>
    cases s with
    | nil => exact .nil
    | cons c s =>
      rw [svgPieces]
      split
      · exact .byte ‹_› (ih s)
      · rename_i hc
        rw [not_not] at hc
        cases hb : breakOn [gt] s with
        | none =>
          rw [hc]
          exact .opened (svgPieces_open (notMem_of_breakOn hb))
        | some r =>
          obtain ⟨tag, rest⟩ := r
          dsimp only
          split
          · exact ih rest
          · split
            · rename_i hsafe
              obtain ⟨closing, name, attrs, slashed, heq, hgood⟩ :=
                keptTag_good (breakOn_single_eq hb).2 hsafe
              rw [heq]
              exact .tag hgood (ih rest)
            · exact ih _

/-! ## The output read again -/

section Again

variable {closing slashed : Bool} {name : Bytes} {attrs : List (Bytes × Bytes)}

/-- What stands behind the name of a tag. -/
def attrsText (attrs : List (Bytes × Bytes)) (slashed : Bool) : Bytes :=
  attrs.flatMap attrText ++ if slashed then [slash] else []

theorem attrsText_cons (a : Bytes × Bytes) (attrs : List (Bytes × Bytes)) (slashed : Bool) :
    attrsText (a :: attrs) slashed =
      32 :: (a.1 ++ equals :: doubleQuote :: (a.2 ++ doubleQuote :: attrsText attrs slashed)) := by
  simp [attrsText, attrText]

theorem attrsText_head (attrs : List (Bytes × Bytes)) (slashed : Bool) :
    ∀ c ∈ (attrsText attrs slashed).head?, isElemChar c = false := by
  cases attrs with
  | nil =>
    cases slashed with
    | false => exact nofun
    | true =>
      rintro c ⟨⟩
      decide
  | cons a attrs =>
    rw [attrsText_cons]
    rintro c ⟨⟩
    decide

theorem markup_space {c : UInt8} (h : isSpace c = false) : Markup.isSpace c = false := by
  have hne : ∀ d : UInt8, isSpace d = true → c ≠ d := by
    rintro d hd rfl
    exact Bool.false_ne_true (h.symm.trans hd)
  simp only [Markup.isSpace, hne 32 (by decide), hne 9 (by decide), hne 10 (by decide),
    hne 12 (by decide), hne 13 (by decide), decide_false, Bool.or_self]

theorem nameChar_ne (c : UInt8) (h : isNameChar c = true) :
    isSpace c = false ∧ c ≠ slash ∧ c ≠ gt ∧ c ≠ equals ∧ Markup.isSpace c = false := by
  simp only [isNameChar, Bool.and_eq_true, decide_eq_true_eq, Bool.not_eq_true'] at h
  obtain ⟨⟨⟨hequals, hspace⟩, hslash⟩, hgt⟩ := h
  exact ⟨hspace, hslash, hgt, hequals, markup_space hspace⟩

theorem elemChar_ne (c : UInt8) (h : isElemChar c = true) :
    c ≠ slash ∧ c ≠ gt ∧ Markup.isSpace c = false := by
  simp only [isElemChar, Bool.and_eq_true, decide_eq_true_eq, Bool.not_eq_true'] at h
  obtain ⟨⟨hspace, hslash⟩, hgt⟩ := h
  exact ⟨hslash, hgt, markup_space hspace⟩

theorem dropWhile_stop {p : UInt8 → Bool} {x s : Bytes} (hx : ∀ c ∈ x, p c = true)
    (hs : ∀ c ∈ s.head?, p c = false) :
    (x ++ s).dropWhile p = s ∧ (x ++ s).takeWhile p = x := by
  rw [List.dropWhile_append_of_pos hx, List.takeWhile_append_of_pos hx]
  cases s with
  | nil => exact ⟨rfl, List.append_nil x⟩
  | cons c s =>
    have hc := hs c rfl
    rw [List.dropWhile_cons_of_neg (by simp [hc]), List.takeWhile_cons_of_neg (by simp [hc])]
    exact ⟨rfl, List.append_nil x⟩

/-- An attribute is read as it was written. -/
theorem readAttr_text {a : Bytes × Bytes} (hname : ∀ c ∈ a.1, isNameChar c = true)
    (hvalue : doubleQuote ∉ a.2) (s : Bytes) :
    readAttr (a.1 ++ equals :: doubleQuote :: (a.2 ++ doubleQuote :: s)) = (a, s) := by
  have hstop := dropWhile_stop (s := equals :: doubleQuote :: (a.2 ++ doubleQuote :: s)) hname
    (by rintro c ⟨⟩; decide)
  have hquoted := dropWhile_stop (p := (· ≠ doubleQuote)) (x := a.2) (s := doubleQuote :: s)
    (fun c hc => decide_eq_true fun h => hvalue (h ▸ hc)) (by rintro c ⟨⟩; decide)
  have hread : readValue (doubleQuote :: (a.2 ++ doubleQuote :: s)) = (a.2, s) := by
    rw [readValue, if_pos (Or.inl rfl), hquoted.1, hquoted.2]
    rfl
  rw [readAttr, hstop.1, hstop.2]
  dsimp only
  rw [if_pos rfl, hread]

theorem exists_turn {n turns : Nat} (h : n + 1 ≤ turns) : ∃ k, turns = k + 1 ∧ n ≤ k :=
  ⟨turns - 1, by omega, by omega⟩

theorem readAttrs_text (hattrs : ∀ a ∈ attrs, (∀ c ∈ a.1, isNameChar c = true) ∧ doubleQuote ∉ a.2)
    {turns : Nat} (hturns : (attrsText attrs slashed).length ≤ turns) :
    readAttrs turns (attrsText attrs slashed) = attrs := by
  induction attrs generalizing turns with
  | nil =>
    cases turns with
    | zero => rfl
    | succ turns => cases slashed <;> rfl
  | cons a attrs ih =>
    rw [List.forall_mem_cons] at hattrs
    rw [attrsText_cons] at hturns ⊢
    obtain ⟨turns, rfl, hrest⟩ := exists_turn hturns
    have hread := readAttr_text hattrs.1.1 hattrs.1.2 (attrsText attrs slashed)
    have hhead : ∀ c ∈ (a.1 ++ equals :: doubleQuote ::
        (a.2 ++ doubleQuote :: attrsText attrs slashed)).head?,
        isSpace c = false ∧ ¬ (c = slash ∨ c = gt) := by
      cases ha : a.1 with
      | nil =>
        rintro c ⟨⟩
        decide
      | cons d n =>
        rintro c ⟨⟩
        have hd := nameChar_ne d (hattrs.1.1 d (by rw [ha]; exact List.mem_cons_self))
        exact ⟨hd.1, fun h => h.elim hd.2.1 hd.2.2.1⟩
    have hdrop := (dropWhile_stop (p := isSpace) (x := [32]) (List.forall_mem_singleton.mpr rfl) fun c hc =>
      (hhead c hc).1).1
    rw [List.singleton_append] at hdrop
    have hlen : (attrsText attrs slashed).length ≤ turns := by
      simp only [List.length_cons, List.length_append] at hrest
      omega
    rw [readAttrs, hdrop]
    cases htext : a.1 ++ equals :: doubleQuote ::
        (a.2 ++ doubleQuote :: attrsText attrs slashed) with
    | nil => exact absurd htext (by simp)
    | cons c u =>
      rw [htext] at hread hhead
      dsimp only
      rw [if_neg (hhead c rfl).2, hread, ih hattrs.2 hlen]

theorem safe_name :
    ∀ e ∈ svgSafeElements, e.head?.any (fun c => 97 ≤ c && c ≤ 122) = true := by
  decide

theorem letter_of_lower (c : UInt8) (h : (97 ≤ toLower c && toLower c ≤ 122) = true) :
    Markup.isLetter c = true := by
  rw [toLower] at h
  split at h
  · rename_i hupper
    rw [Markup.isLetter, decide_eq_true hupper.1, decide_eq_true hupper.2, Bool.and_self,
      Bool.true_or]
  · rw [Markup.isLetter, h, Bool.or_true]

/-- The name of a safe element begins with a letter. -/
theorem GoodTag.letter (h : GoodTag name attrs) :
    ∃ c s, name = c :: s ∧ Markup.isLetter c = true := by
  have hhead := safe_name _ h.safe
  cases name with
  | nil => cases hhead
  | cons c s => exact ⟨c, s, rfl, letter_of_lower c hhead⟩

theorem tagText_eq (closing : Bool) (name : Bytes) (attrs : List (Bytes × Bytes)) (slashed : Bool) :
    tagText closing name attrs slashed =
      (if closing then [slash] else []) ++ (name ++ attrsText attrs slashed) := rfl

theorem attrsText_gt (hattrs : ∀ a ∈ attrs, (∀ c ∈ a.1, isNameChar c = true) ∧ gt ∉ a.2) :
    gt ∉ attrsText attrs slashed := by
  induction attrs with
  | nil => cases slashed <;> decide
  | cons a attrs ih =>
    rw [List.forall_mem_cons] at hattrs
    have hname : gt ∉ a.1 := fun hmem => (nameChar_ne gt (hattrs.1.1 gt hmem)).2.2.1 rfl
    rw [attrsText_cons]
    simp only [List.mem_cons, List.mem_append, not_or]
    exact ⟨by decide, hname, by decide, by decide, hattrs.1.2, by decide, ih hattrs.2⟩

theorem tagText_gt (h : GoodTag name attrs) : gt ∉ tagText closing name attrs slashed := by
  have hname : gt ∉ name := fun hmem => (elemChar_ne gt (h.nameChars gt hmem)).2.1 rfl
  have hclosing : gt ∉ (if closing then [slash] else []) := by cases closing <;> decide
  rw [tagText_eq, List.mem_append, List.mem_append, not_or, not_or]
  exact ⟨hclosing, hname, attrsText_gt h.attrChars⟩

/-- A slash at the end is the one of the tag. -/
theorem tagText_last (h : GoodTag name attrs) :
    decide ((tagText closing name attrs slashed).getLast? = some slash) = slashed := by
  cases slashed with
  | true =>
    have htext : tagText closing name attrs true =
        ((if closing then [slash] else []) ++ (name ++ attrs.flatMap attrText)) ++ [slash] := by
      simp [tagText_eq, attrsText]
    rw [htext, List.getLast?_concat]
    rfl
  | false =>
    refine decide_eq_false fun hlast => ?_
    rcases List.eq_nil_or_concat attrs with rfl | ⟨init, a, rfl⟩
    · obtain ⟨c, s, hname, -⟩ := h.letter
      have htext : tagText closing name [] false = (if closing then [slash] else []) ++ name :=
        congrArg _ (List.append_nil name)
      have hne : name ≠ [] := by rw [hname]; exact List.cons_ne_nil c s
      rw [htext, List.getLast?_append_of_ne_nil _ hne] at hlast
      exact (elemChar_ne slash (h.nameChars slash (List.mem_of_getLast? hlast))).1 rfl
    · have htext : tagText closing name (init.concat a) false =
          ((if closing then [slash] else []) ++ (name ++ (init.flatMap attrText ++
            32 :: (a.1 ++ equals :: doubleQuote :: a.2)))) ++ [doubleQuote] := by
        simp [tagText_eq, attrsText, attrText]
      rw [htext, List.getLast?_concat] at hlast
      exact absurd hlast (by decide)

theorem tagText_head (h : GoodTag name attrs) :
    ¬ (tagText closing name attrs slashed = [] ∨
      (tagText closing name attrs slashed).head? = some bang) := by
  obtain ⟨c, s, hname, hletter⟩ := h.letter
  rw [tagText_eq, hname]
  cases closing with
  | true => simp [slash, bang]
  | false =>
    have hc : c ≠ bang := by
      rintro rfl
      cases hletter
    simpa using hc

/-- A tag that was written is kept as it is. -/
theorem keptTag_text (h : GoodTag name attrs) (hquoted : ∀ a ∈ attrs, doubleQuote ∉ a.2) :
    elemRaw (tagText closing name attrs slashed) = name ∧
      keptTag (tagText closing name attrs slashed) = .tag closing name attrs slashed := by
  obtain ⟨d, n, hdn, hletter⟩ := h.letter
  have hclosing : isClosing (tagText closing name attrs slashed) = closing := by
    cases closing with
    | true => rfl
    | false =>
      have hd := (elemChar_ne d (h.nameChars d (by rw [hdn]; exact List.mem_cons_self))).1
      rw [isClosing, tagText_eq, hdn]
      exact decide_eq_false fun hno => hd (Option.some.inj hno)
  have hbody : tagBody (tagText closing name attrs slashed) = name ++ attrsText attrs slashed := by
    rw [tagBody, hclosing]
    cases closing <;> rfl
  obtain ⟨hdrop, htake⟩ := dropWhile_stop h.nameChars (attrsText_head attrs slashed)
  have helem : elemRaw (tagText closing name attrs slashed) = name := by
    rw [elemRaw, hbody, htake]
  have hread : readAttrs (attrsText attrs slashed).length (attrsText attrs slashed) = attrs :=
    readAttrs_text (fun a ha => ⟨(h.attrChars a ha).1, hquoted a ha⟩) (Nat.le_refl _)
  refine ⟨helem, ?_⟩
  rw [keptTag, helem, hbody, hdrop, hclosing, tagText_last h, hread,
    List.filter_eq_self.mpr h.kept]

theorem render_cons (p : Piece) (ps : List Piece) : render (p :: ps) = p.text ++ render ps := rfl

theorem render_open {ps : List Piece} (h : ∀ p ∈ ps, ∃ c, p = Piece.byte c ∧ c ≠ gt) :
    gt ∉ render ps := by
  intro hmem
  obtain ⟨p, hp, hc⟩ := List.mem_flatMap.mp hmem
  obtain ⟨c, rfl, hne⟩ := h p hp
  exact hne (List.mem_singleton.mp hc).symm

theorem svgPieces_bytes {ps : List Piece} (h : ∀ p ∈ ps, ∃ c, p = Piece.byte c ∧ c ≠ gt)
    {turns : Nat} (hturns : (render ps).length ≤ turns) : svgPieces turns (render ps) = ps := by
  induction ps generalizing turns with
  | nil => cases turns <;> rfl
  | cons p ps ih =>
    rw [List.forall_mem_cons] at h
    obtain ⟨⟨c, rfl, -⟩, hps⟩ := h
    obtain ⟨turns, rfl, hlen⟩ := exists_turn hturns
    have hbyte : svgPieces (turns + 1) (c :: render ps) =
        .byte c :: svgPieces turns (render ps) := by
      rw [svgPieces, breakOn_single_none (render_open hps)]
      split <;> rfl
    exact hbyte.trans (congrArg _ (ih hps hlen))

/-- The pieces of the output are those it was made of. -/
theorem svgPieces_render {ps : List Piece} (h : Good ps) (hquoted : WellQuoted ps) {turns : Nat}
    (hturns : (render ps).length ≤ turns) : svgPieces turns (render ps) = ps := by
  induction h generalizing turns with
  | nil => cases turns <;> rfl
  | @byte c ps hc hps ih =>
    rw [render_cons, Piece.text, List.singleton_append] at hturns ⊢
    obtain ⟨turns, rfl, hlen⟩ := exists_turn hturns
    rw [svgPieces, if_pos hc, ih _ hlen]
    exact fun closing name attrs slashed hmem =>
      hquoted closing name attrs slashed (List.mem_cons_of_mem _ hmem)
  | @opened ps hps =>
    rw [render_cons, Piece.text, List.singleton_append] at hturns ⊢
    obtain ⟨turns, rfl, hlen⟩ := exists_turn hturns
    rw [svgPieces, if_neg fun hno => hno rfl, breakOn_single_none (render_open hps)]
    exact congrArg _ (svgPieces_bytes hps hlen)
  | @tag closing slashed name attrs ps hgood hps ih =>
    have hattrs : ∀ a ∈ attrs, doubleQuote ∉ a.2 := fun a ha =>
      (hquoted closing name attrs slashed List.mem_cons_self a ha).2
    obtain ⟨helem, hkept⟩ := @keptTag_text closing slashed name attrs hgood hattrs
    have htext : render (.tag closing name attrs slashed :: ps) =
        lt :: (tagText closing name attrs slashed ++ gt :: render ps) := by
      simp [render_cons, Piece.text]
    rw [htext] at hturns ⊢
    obtain ⟨turns, rfl, hlen⟩ := exists_turn hturns
    rw [List.length_append, List.length_cons] at hlen
    rw [svgPieces, if_neg fun hno => hno rfl, breakOn_single (tagText_gt hgood)]
    dsimp only
    rw [if_neg (tagText_head hgood), helem, if_pos hgood.safe, hkept,
      ih (fun closing name attrs slashed hmem =>
        hquoted closing name attrs slashed (List.mem_cons_of_mem _ hmem)) (by omega)]

theorem svgSanitize_again {input : Bytes}
    (hquoted : WellQuoted (svgPieces input.length input)) :
    svgSanitize (svgSanitize input) = svgSanitize input := by
  have hgood := svgPieces_good input.length input
  rw [svgSanitize, svgSanitize, svgPieces_render hgood hquoted (Nat.le_refl _)]

end Again

/-! ## The tags of the output -/

section Tags

/-- The tag that is read is known, and another attribute or the end of it may come. -/
def Between (st : State) (t : Tag) : Prop := st = .tagName t ∨ st = .beforeAttr t

theorem tagsFrom_name {x : Bytes} (hx : ∀ c ∈ x, isElemChar c = true) (t : Tag) (s : Bytes) :
    tagsFrom (.tagName t) (x ++ s) = tagsFrom (.tagName { t with name := t.name ++ lower x }) s := by
  induction x generalizing t with
  | nil => simp [lower]
  | cons c x ih =>
    rw [List.forall_mem_cons] at hx
    obtain ⟨hslash, hgt, hspace⟩ := elemChar_ne c hx.1
    rw [List.cons_append, Markup.tagsFrom_cons, State.step, if_neg (by simp [hspace, hslash]),
      if_neg hgt, ih hx.2]
    simp [lower]

theorem tagsFrom_attrName {x : Bytes} (hx : ∀ c ∈ x, isNameChar c = true) (t : Tag) (name s : Bytes) :
    tagsFrom (.attrName t name) (x ++ s) = tagsFrom (.attrName t (name ++ lower x)) s := by
  induction x generalizing name with
  | nil => simp [lower]
  | cons c x ih =>
    rw [List.forall_mem_cons] at hx
    obtain ⟨-, hslash, hgt, heq, hspace⟩ := nameChar_ne c hx.1
    rw [List.cons_append, Markup.tagsFrom_cons, State.step, if_neg (by simp [hspace]),
      if_neg hslash, if_neg hgt, if_neg heq, ih hx.2]
    simp [lower]

theorem tagsFrom_quoted {x : Bytes} (hx : doubleQuote ∉ x) (t : Tag) (name value s : Bytes) :
    tagsFrom (.quoted doubleQuote t name value) (x ++ doubleQuote :: s) =
      tagsFrom (.beforeAttr (t.push name (value ++ x))) s := by
  induction x generalizing value with
  | nil => rw [List.nil_append, Markup.tagsFrom_cons, State.step, if_pos rfl, List.append_nil]; rfl
  | cons c x ih =>
    rw [List.mem_cons, not_or] at hx
    rw [List.cons_append, Markup.tagsFrom_cons, State.step, if_neg (Ne.symm hx.1), ih hx.2]
    simp

/-- An attribute is read with its name in lower case. -/
theorem tagsFrom_attr {st : State} {t : Tag} (hst : Between st t) {a : Bytes × Bytes}
    (hne : a.1 ≠ []) (hname : ∀ c ∈ a.1, isNameChar c = true) (hvalue : doubleQuote ∉ a.2)
    (s : Bytes) :
    tagsFrom st (attrText a ++ s) = tagsFrom (.beforeAttr (t.push (lower a.1) a.2)) s := by
  obtain ⟨c, n, hcn⟩ := List.exists_cons_of_ne_nil hne
  rw [hcn, List.forall_mem_cons] at hname
  obtain ⟨-, hslash, hgt, heq, hspace⟩ := nameChar_ne c hname.1
  have hblank : st.step 32 = (.beforeAttr t, []) := by rcases hst with rfl | rfl <;> rfl
  have hfirst : (State.beforeAttr t).step c = (.attrName t [toLower c], []) := by
    rw [State.step, Markup.attrStep, if_neg (by simp [hspace, hslash]), if_neg hgt]
  have htext : attrText a ++ s =
      32 :: c :: (n ++ equals :: doubleQuote :: (a.2 ++ doubleQuote :: s)) := by
    simp [attrText, hcn]
  rw [htext, Markup.tagsFrom_cons, hblank, Markup.tagsFrom_cons, hfirst, tagsFrom_attrName hname.2,
    hcn]
  exact tagsFrom_quoted hvalue t _ [] s

theorem tagsFrom_attrs {attrs : List (Bytes × Bytes)} {st : State} {t : Tag} (hst : Between st t)
    (hattrs : ∀ a ∈ attrs, a.1 ≠ [] ∧ (∀ c ∈ a.1, isNameChar c = true) ∧ doubleQuote ∉ a.2)
    (s : Bytes) :
    ∃ st', Between st' { t with attrs := t.attrs ++ attrs.map fun a => (lower a.1, a.2) } ∧
      tagsFrom st (attrs.flatMap attrText ++ s) = tagsFrom st' s := by
  induction attrs generalizing st t with
  | nil => exact ⟨st, by simpa using hst, rfl⟩
  | cons a attrs ih =>
    rw [List.forall_mem_cons] at hattrs
    have hnext : Between (.beforeAttr (t.push (lower a.1) a.2)) (t.push (lower a.1) a.2) :=
      Or.inr rfl
    obtain ⟨st', hst', hrest⟩ := ih hnext hattrs.2
    refine ⟨st', ?_, ?_⟩
    · simpa [Tag.push] using hst'
    · rw [List.flatMap_cons, List.append_assoc,
        tagsFrom_attr hst hattrs.1.1 hattrs.1.2.1 hattrs.1.2.2]
      exact hrest

theorem tagsFrom_end {st : State} {t : Tag} (hst : Between st t) (slashed : Bool) (s : Bytes) :
    tagsFrom st ((if slashed then [slash] else []) ++ gt :: s) = t :: tagsFrom .data s := by
  rcases hst with rfl | rfl <;> cases slashed <;> rfl

/-- The tags that the pieces stand for. -/
def tagsOf : List Piece → List Tag
  | [] => []
  | .byte _ :: ps => tagsOf ps
  | .tag closing name attrs _ :: ps =>
    ⟨closing, lower name, attrs.map fun a => (lower a.1, a.2)⟩ :: tagsOf ps

theorem tagsOf_bytes {ps : List Piece} (h : ∀ p ∈ ps, ∃ c, p = Piece.byte c ∧ c ≠ gt) :
    tagsOf ps = [] := by
  induction ps with
  | nil => rfl
  | cons p ps ih =>
    rw [List.forall_mem_cons] at h
    obtain ⟨⟨c, rfl, -⟩, hps⟩ := h
    exact ih hps

/-- A tag is read up to its name. -/
theorem tagsFrom_opening {c : UInt8} (hc : Markup.isLetter c = true) (closing : Bool) (s : Bytes) :
    tagsFrom .data (lt :: ((if closing then [slash] else []) ++ c :: s)) =
      tagsFrom (.tagName ⟨closing, [toLower c], []⟩) s := by
  cases closing with
  | true =>
    have hopen : State.endTagOpen.step c = (.tagName ⟨true, [toLower c], []⟩, []) := if_pos hc
    exact congrArg (fun r => r.2 ++ tagsFrom r.1 s) hopen
  | false =>
    have hbang : c ≠ bang := by
      rintro rfl
      cases hc
    have hslash : c ≠ slash := by
      rintro rfl
      cases hc
    have hopen : State.tagOpen.step c = (.tagName ⟨false, [toLower c], []⟩, []) := by
      rw [State.step, if_neg hbang, if_neg hslash, if_pos hc]
    exact congrArg (fun r => r.2 ++ tagsFrom r.1 s) hopen

theorem tagsFrom_tag {closing slashed : Bool} {name : Bytes} {attrs : List (Bytes × Bytes)}
    (h : GoodTag name attrs) (hquoted : ∀ a ∈ attrs, a.1 ≠ [] ∧ doubleQuote ∉ a.2) (s : Bytes) :
    tagsFrom .data ((Piece.tag closing name attrs slashed).text ++ s) =
      ⟨closing, lower name, attrs.map fun a => (lower a.1, a.2)⟩ :: tagsFrom .data s := by
  obtain ⟨c, n, hcn, hletter⟩ := h.letter
  have hchars := h.nameChars
  rw [hcn, List.forall_mem_cons] at hchars
  have htext : (Piece.tag closing name attrs slashed).text ++ s =
      lt :: ((if closing then [slash] else []) ++ c :: (n ++ (attrs.flatMap attrText ++
        ((if slashed then [slash] else []) ++ gt :: s)))) := by
    simp [Piece.text, tagText, hcn]
  have hstart : Between (.tagName ⟨closing, lower name, []⟩) ⟨closing, lower name, []⟩ := Or.inl rfl
  obtain ⟨st, hst, hrest⟩ := tagsFrom_attrs hstart
    (fun a ha => ⟨(hquoted a ha).1, (h.attrChars a ha).1, (hquoted a ha).2⟩)
    ((if slashed then [slash] else []) ++ gt :: s)
  have hname : (⟨closing, [toLower c] ++ lower n, []⟩ : Tag) = ⟨closing, lower name, []⟩ := by
    rw [hcn]
    rfl
  rw [htext, tagsFrom_opening hletter, tagsFrom_name hchars.2, hname, hrest, tagsFrom_end hst]
  rfl

/-- HTML reads the tags that were kept. -/
theorem tags_render {ps : List Piece} (h : Good ps) (hquoted : WellQuoted ps) :
    tags (render ps) = tagsOf ps := by
  induction h with
  | nil => rfl
  | @byte c ps hc hps ih =>
    have hrest := ih fun closing name attrs slashed hmem =>
      hquoted closing name attrs slashed (List.mem_cons_of_mem _ hmem)
    rw [tags, render_cons, Piece.text, Markup.tagsFrom_text (by simpa using Ne.symm hc)]
    exact hrest
  | @opened ps hps =>
    have hopen : gt ∉ render (.byte lt :: ps) := by
      rw [render_cons, Piece.text, List.mem_append, not_or]
      exact ⟨by decide, render_open hps⟩
    rw [tags, Markup.tagsFrom_open hopen]
    exact (tagsOf_bytes hps).symm
  | @tag closing slashed name attrs ps hgood hps ih =>
    have hrest := ih fun closing name attrs slashed hmem =>
      hquoted closing name attrs slashed (List.mem_cons_of_mem _ hmem)
    rw [tags, render_cons,
      tagsFrom_tag hgood (hquoted closing name attrs slashed List.mem_cons_self), ← tags, hrest]
    rfl

end Tags

/-! ## Soundness -/

section Soundness

variable {named : Bytes → Option (List Nat × Nat)}

theorem mem_tagsOf {ps : List Piece} {t : Tag} :
    t ∈ tagsOf ps ↔ ∃ closing name attrs slashed, Piece.tag closing name attrs slashed ∈ ps ∧
      t = ⟨closing, lower name, attrs.map fun a => (lower a.1, a.2)⟩ := by
  induction ps with
  | nil => exact iff_of_false List.not_mem_nil fun ⟨_, _, _, _, h, _⟩ => List.not_mem_nil h
  | cons p ps ih =>
    cases p with
    | byte c => simp [tagsOf, ih]
    | tag closing name attrs slashed =>
      rw [tagsOf, List.mem_cons, ih]
      constructor
      · rintro (rfl | ⟨closing', name', attrs', slashed', hmem, rfl⟩)
        · exact ⟨closing, name, attrs, slashed, List.mem_cons_self, rfl⟩
        · exact ⟨closing', name', attrs', slashed', List.mem_cons_of_mem _ hmem, rfl⟩
      · rintro ⟨closing', name', attrs', slashed', hmem, rfl⟩
        rcases List.mem_cons.mp hmem with heq | hmem
        · cases heq
          exact Or.inl rfl
        · exact Or.inr ⟨closing', name', attrs', slashed', hmem, rfl⟩

theorem Good.tag_mem {ps : List Piece} (h : Good ps) {closing slashed : Bool} {name : Bytes}
    {attrs : List (Bytes × Bytes)} (hmem : Piece.tag closing name attrs slashed ∈ ps) :
    GoodTag name attrs := by
  induction h with
  | nil => cases hmem
  | byte _ _ ih =>
    rcases List.mem_cons.mp hmem with heq | hmem
    · cases heq
    · exact ih hmem
  | opened hps =>
    rcases List.mem_cons.mp hmem with heq | hmem
    · cases heq
    · obtain ⟨c, heq, -⟩ := hps _ hmem
      cases heq
  | tag hgood _ ih =>
    rcases List.mem_cons.mp hmem with heq | hmem
    · cases heq
      exact hgood
    · exact ih hmem

/-- What is known of a kept attribute. -/
theorem keeps_iff {isUse : Bool} {a : Bytes × Bytes} :
    keeps isUse a = true ↔ ¬ ascii "on" <+: lower a.1 ∧ svgValueDangerous a.2 = false ∧
      (isUse = true → lower a.1 = ascii "href" ∨ lower a.1 = ascii "xlink:href" →
        a.2.head? = some 35) := by
  rw [keeps, Bool.and_eq_true, Bool.and_eq_true, and_assoc, Bool.not_eq_true', Bool.not_eq_true',
    Bool.not_eq_true', Bool.eq_false_iff, Ne, List.isPrefixOf_iff_prefix]
  refine and_congr_right fun _ => and_congr_right fun _ => ?_
  cases isUse with
  | false => simp
  | true =>
    rw [Bool.true_and, Bool.and_eq_false_iff, Bool.or_eq_false_iff, decide_eq_false_iff_not,
      decide_eq_false_iff_not, decide_eq_false_iff_not, ← not_or, not_not]
    exact ⟨fun h _ hname => h.resolve_left fun hno => hno hname, fun h =>
      or_iff_not_imp_left.mpr fun hname => h rfl (not_not.mp hname)⟩

theorem decode_head {value : Bytes} (h : value.head? = some 35) :
    (Markup.decode named value).head? = some 35 := by
  cases value with
  | nil => cases h
  | cons c s =>
    cases h
    rfl

/-- The tags of good pieces are safe when no scheme is hidden. -/
theorem safe_tagsOf_iff {ps : List Piece} (h : Good ps) :
    Safe named (tagsOf ps) ↔ NoHidden named ps := by
  constructor
  · intro hsafe name attrs slashed hmem a ha
    obtain ⟨-, hattrs⟩ := hsafe _ (mem_tagsOf.mpr ⟨false, name, attrs, slashed, hmem, rfl⟩) rfl
    exact (hattrs _ (List.mem_map_of_mem ha)).scheme
  · intro hhidden t ht hclosing
    obtain ⟨closing, name, attrs, slashed, hmem, rfl⟩ := mem_tagsOf.mp ht
    cases hclosing
    have hgood := h.tag_mem hmem
    refine ⟨hgood.safe, fun b hb => ?_⟩
    obtain ⟨a, ha, rfl⟩ := List.mem_map.mp hb
    obtain ⟨hevent, -, huse⟩ := keeps_iff.mp (hgood.kept a ha)
    exact ⟨hevent, hhidden name attrs slashed hmem a ha, fun hname hhref =>
      decode_head (huse (decide_eq_true hname) hhref)⟩

end Soundness

end Svg

end Look
