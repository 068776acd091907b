/-
The placeholders of `extended_query_raw`.

The loop knows quotation marks only: each one is closed by the next of its kind.  PostgreSQL knows
comments, dollar-quoted strings and escapes too.  `placeholders_iff` says that the numbers go to the
right places exactly when both agree on every `?`.
-/
import Look.Lib.Scan
import Look.Postgres.Lexical

namespace Look

namespace PgLex

open Postgres (Bytes)
open Postgres.Client (placeholders bindBody)

/-! ## What the loop does -/

def isQuote (c : UInt8) : Bool := c = quote || c = doubleQuote

/-- The mark of the string that the loop is in, behind the next byte. -/
def toggle : Option UInt8 → UInt8 → Option UInt8
  | none, c => if isQuote c then some c else none
  | some q, c => if c = q then none else some q

/-- The loop numbers this byte. -/
def seen (q : Option UInt8) (c : UInt8) : Bool := q.isNone && c = questionMark

/-- The `k`-th placeholder as PostgreSQL wants it. -/
def numberedParameter (k : Nat) : Bytes := dollar :: intText k

theorem toggle_quote {c : UInt8} (h : isQuote c = true) : toggle none c = some c := by
  rw [toggle, if_pos h]

theorem toggle_self (q : UInt8) : toggle (some q) q = none := by rw [toggle, if_pos rfl]

theorem toggle_ne {q c : UInt8} (h : c ≠ q) : toggle (some q) c = some q := by
  rw [toggle, if_neg h]

theorem isQuote_iff {c : UInt8} : isQuote c = true ↔ c = 0x27 ∨ c = 0x22 := by
  rw [isQuote, Bool.or_eq_true, decide_eq_true_iff, decide_eq_true_iff]
  exact Iff.rfl

theorem ne_questionMark {q : UInt8} (h : isQuote q = true) : q ≠ questionMark := by
  rintro rfl
  exact absurd h (by decide)

theorem numbered_skip {q : Option UInt8} {c : UInt8} (h : seen q c = false) (k : Nat) (sql : Bytes) :
    Scan.numbered toggle seen numberedParameter q k (c :: sql) =
      c :: Scan.numbered toggle seen numberedParameter (toggle q c) k sql := by
  rw [Scan.numbered, h, if_neg Bool.false_ne_true]

theorem seen_some (q c : UInt8) : seen (some q) c = false := rfl

/-- A doubled mark is a string that ends and one that begins. -/
theorem placeholders_eq {q : Option UInt8} (hq : ∀ x ∈ q, isQuote x = true) (k : Nat) (sql : Bytes) :
    placeholders q k sql = Scan.numbered toggle seen numberedParameter q k sql := by
  fun_induction placeholders q k sql with
  | case1 => rfl
  | case2 k c sql hc ih =>
    have hquote := isQuote_iff.mpr hc
    have hseen : seen none c = false := decide_eq_false (ne_questionMark hquote)
    rw [numbered_skip hseen, toggle_quote hquote, ih fun x hx => Option.mem_some.mp hx ▸ hquote]
  | case3 k sql hc ih =>
    rw [ih nofun, Scan.numbered]
    rfl
  | case4 k c sql hc hne ih =>
    have hseen : seen none c = false := decide_eq_false hne
    have hquote : toggle none c = none := by
      rw [toggle, if_neg fun h => hc (isQuote_iff.mp h)]
    rw [numbered_skip hseen, hquote, ih nofun]
  | case5 q k c =>
    rw [numbered_skip (seen_some q c), placeholders, Scan.numbered]
  | case6 k q sql ih =>
    have hquote : isQuote q = true := hq q rfl
    have hseen : seen none q = false := decide_eq_false (ne_questionMark hquote)
    rw [numbered_skip (seen_some q q), toggle_self, numbered_skip hseen, toggle_quote hquote, ih hq]
  | case7 k q d sql hd ih =>
    rw [numbered_skip (seen_some q q), toggle_self, ih nofun]
  | case8 q k c d sql hne ih =>
    rw [numbered_skip (seen_some q c), toggle_ne hne, ih hq]

/-! ## Quotation marks that pair up -/

/-- Every quotation mark is closed by the next one of its kind. -/
inductive Paired : Bytes → Prop
  | nil : Paired []
  | byte {c : UInt8} {s : Bytes} : isQuote c = false → Paired s → Paired (c :: s)
  | quoted {q : UInt8} {body s : Bytes} : isQuote q = true → q ∉ body → Paired s →
      Paired (q :: (body ++ q :: s))

theorem foldl_toggle_body {q : UInt8} {body : Bytes} (h : q ∉ body) :
    body.foldl toggle (some q) = some q := by
  induction body with
  | nil => rfl
  | cons c body ih =>
    rw [List.mem_cons, not_or] at h
    rw [List.foldl_cons, toggle_ne (Ne.symm h.1), ih h.2]

theorem foldl_toggle_quoted {q : UInt8} {body : Bytes} (hq : isQuote q = true) (h : q ∉ body)
    (s : Bytes) : (q :: (body ++ q :: s)).foldl toggle none = s.foldl toggle none := by
  rw [List.foldl_cons, toggle_quote hq, List.foldl_append, foldl_toggle_body h, List.foldl_cons,
    toggle_self]

theorem Paired.foldl {s : Bytes} (h : Paired s) : s.foldl toggle none = none := by
  induction h with
  | nil => rfl
  | byte hc _ ih =>
    rw [List.foldl_cons, toggle, if_neg (by rw [hc]; exact Bool.false_ne_true), ih]
  | quoted hq hbody _ ih => rw [foldl_toggle_quoted hq hbody, ih]

theorem paired_of_foldl (n : Nat) :
    ∀ s : Bytes, s.length ≤ n → s.foldl toggle none = none → Paired s := by
  induction n with
  | zero =>
    intro s hs _
    rw [List.length_eq_zero_iff.mp (Nat.le_zero.mp hs)]
    exact .nil
  | succ n ih =>
    intro s hs h
    match s with
    | [] => exact .nil
    | c :: s =>
      rw [List.length_cons] at hs
      cases hc : isQuote c with
      | false =>
        rw [List.foldl_cons, toggle, if_neg (by rw [hc]; exact Bool.false_ne_true)] at h
        exact .byte hc (ih s (by omega) h)
      | true =>
        rw [List.foldl_cons, toggle_quote hc] at h
        by_cases hmem : c ∈ s
        · obtain ⟨body, rest, rfl, hbody⟩ := List.eq_append_cons_of_mem hmem
          rw [List.foldl_append, foldl_toggle_body hbody, List.foldl_cons, toggle_self] at h
          rw [List.length_append, List.length_cons] at hs
          exact .quoted hc hbody (ih rest (by omega) h)
        · rw [foldl_toggle_body hmem] at h
          cases h

theorem paired_iff (s : Bytes) : Paired s ↔ s.foldl toggle none = none :=
  ⟨Paired.foldl, paired_of_foldl s.length s (Nat.le_refl _)⟩

/-! ## Where the placeholders are -/

/-- A placeholder: a `?` that is not in a literal, a name or a comment. -/
def isPlaceholder (m : Mode) (c : UInt8) : Bool := m.outside && c = questionMark

/-- The statement with every placeholder replaced by its number. -/
def withNumbers (sql : Bytes) : Bytes :=
  Scan.numbered Mode.step isPlaceholder numberedParameter start 0 sql

/-- The number of parameters that the server reads in a Bind message. -/
def announced (body : Bytes) : Nat := ofBytes ((body.drop 4).take 2)

/-- The quotation marks before a `?` pair up exactly when it is a placeholder. -/
def MarksAgree (sql : Bytes) : Prop :=
  ∀ p rest, sql = p ++ questionMark :: rest → ((run p).outside = true ↔ Paired p)

theorem seen_iff {p : Bytes} {c : UInt8} :
    seen (p.foldl toggle none) c = true ↔ Paired p ∧ c = questionMark := by
  rw [seen, Bool.and_eq_true, Option.isNone_iff_eq_none, decide_eq_true_iff, paired_iff]

theorem isPlaceholder_iff {m : Mode} {c : UInt8} :
    isPlaceholder m c = true ↔ m.outside = true ∧ c = questionMark := by
  rw [isPlaceholder, Bool.and_eq_true, decide_eq_true_iff]

theorem marksAgree_iff (sql : Bytes) :
    MarksAgree sql ↔ Scan.Agree toggle seen Mode.step isPlaceholder none start sql := by
  constructor
  · intro h p c rest hp
    rw [Bool.eq_iff_iff, seen_iff, isPlaceholder_iff]
    refine and_congr_left fun hc => ?_
    exact (h p rest (hc ▸ hp)).symm
  · intro h p rest hp
    have hagree := Bool.eq_iff_iff.mp (h p questionMark rest hp)
    rw [seen_iff, isPlaceholder_iff, and_iff_left rfl, and_iff_left rfl] at hagree
    exact hagree.symm

theorem placeholders_eq_iff (sql : Bytes) :
    placeholders none 0 sql = withNumbers sql ↔ MarksAgree sql := by
  have heq := placeholders_eq (q := none) nofun 0 sql
  rw [heq, withNumbers, marksAgree_iff]
  refine Scan.numbered_eq_iff ?_ none start 0 sql
  -- A `?` is not the `$` that replaces it.
  intro q m c k x y hmark htext
  have hc : c = questionMark := by
    rcases hmark with h | h
    · rw [seen, Bool.and_eq_true, decide_eq_true_iff] at h
      exact h.2
    · exact (isPlaceholder_iff.mp h).2
  rw [numberedParameter, List.cons_append, hc] at htext
  exact absurd (List.cons.inj htext).1 (by decide)

theorem announced_eq [DoubleOps] (params : List DbParam) :
    announced (bindBody params) = ofBytes (toBytes 2 params.length) := by
  have hlen := length_toBytes 2 params.length
  rw [announced, bindBody, List.append_assoc, List.append_assoc]
  change ofBytes (List.take 2 (toBytes 2 params.length ++ _)) = _
  rw [List.take_left' hlen]

theorem announced_iff [DoubleOps] (params : List DbParam) :
    announced (bindBody params) = params.length ↔ params.length < 65536 := by
  rw [announced_eq]
  constructor
  · intro h
    have hlt := ofBytes_lt (toBytes 2 params.length)
    rw [h, length_toBytes] at hlt
    exact hlt
  · exact fun h => ofBytes_toBytes 2 params.length h

/-! ## Statements without surprises -/

/-- The mark of the string or name that the lexer is in. -/
def Mode.mark : Mode → Option UInt8
  | .string _ | .stringBackslash => some quote
  | .name => some doubleQuote
  | _ => none

/-- Not a comment, a dollar-quoted string or an escaped byte. -/
def Mode.simple : Mode → Bool
  | .line _ | .block .. | .dollars .. | .stringBackslash => false
  | _ => true

theorem mark_codeStep (word : Bytes) (gap : Gap) (c : UInt8) :
    (codeStep word gap c).mark = toggle none c := by
  rw [codeStep]
  by_cases hq : c = quote
  · rw [if_pos hq, hq]
    rfl
  · by_cases hd : c = doubleQuote
    · rw [if_neg hq, if_pos hd, hd]
      rfl
    · have hnone : toggle none c = none := by
        rw [toggle, isQuote, decide_eq_false hq, decide_eq_false hd, Bool.or_self,
          if_neg Bool.false_ne_true]
      rw [if_neg hq, if_neg hd, hnone]
      split_ifs <;> rfl

theorem toggle_other {c : UInt8} (h : isQuote c = false) : toggle none c = none := by
  rw [toggle, h, if_neg Bool.false_ne_true]

theorem isQuote_of_tagCont : ∀ c : UInt8, tagCont c = true → isQuote c = false :=
  forall_byte (by decide +kernel)

/-- The loop follows the lexer through a byte, unless a comment, a dollar-quoted string or an escape
hides a quotation mark from the lexer. -/
theorem mark_step {m : Mode} {c : UInt8} (h : isQuote c = true → m.simple = true) :
    toggle m.mark c = (m.step c).mark := by
  have hother : m.simple = false → isQuote c = false := fun hm => by
    rw [← Bool.not_eq_true]
    intro hc
    rw [h hc] at hm
    cases hm
  cases m with
  | code word gap => exact (mark_codeStep word gap c).symm
  | afterMinus gap =>
    rw [Mode.step]
    split
    · rename_i hc
      rw [hc]
      rfl
    · exact (mark_codeStep [] .closed c).symm
  | afterSlash =>
    rw [Mode.step]
    split
    · rename_i hc
      rw [hc]
      rfl
    · exact (mark_codeStep [] .closed c).symm
  | tag t =>
    rw [Mode.step]
    split
    · rename_i hc
      rw [hc]
      rfl
    · split
      · rename_i _ hletter
        refine toggle_other (isQuote_of_tagCont c ?_)
        rcases hletter with hstart | hcont
        · rw [tagCont, hstart, Bool.true_or]
        · exact hcont.2
      · exact (mark_codeStep t .closed c).symm
  | string escapes =>
    change toggle (some quote) c = _
    rw [Mode.step]
    split
    · rename_i hc
      rw [hc, toggle_self]
      rfl
    · rename_i hc
      rw [toggle_ne hc]
      split <;> rfl
  | stringQuote escapes =>
    rw [Mode.step]
    split
    · rename_i hc
      rw [hc]
      rfl
    · exact (mark_codeStep [] _ c).symm
  | stringBackslash =>
    refine toggle_ne ?_
    rintro rfl
    exact absurd (hother rfl) (by decide)
  | name =>
    change toggle (some doubleQuote) c = _
    rw [Mode.step]
    split
    · rename_i hc
      rw [hc, toggle_self]
      rfl
    · rename_i hc
      rw [toggle_ne hc]
      rfl
  | nameQuote =>
    rw [Mode.step]
    split
    · rename_i hc
      rw [hc]
      rfl
    · exact (mark_codeStep [] .closed c).symm
  | dollars t since =>
    change toggle none c = _
    rw [toggle_other (hother rfl), Mode.step]
    split_ifs <;> rfl
  | line gap =>
    change toggle none c = _
    rw [toggle_other (hother rfl), Mode.step]
    split <;> rfl
  | block depth before =>
    change toggle none c = _
    rw [toggle_other (hother rfl), Mode.step]
    split_ifs <;> rfl

/-- No quotation mark and no `?` stands in a comment or in a dollar-quoted string, nor behind a
backslash that escapes it. -/
def Simple (sql : Bytes) : Prop :=
  ∀ p c rest, sql = p ++ c :: rest → isQuote c = true ∨ c = questionMark → (run p).simple = true

theorem marksAgree_of_simple {sql : Bytes} (h : Simple sql) : MarksAgree sql := by
  rw [marksAgree_iff]
  refine Scan.agree_of_related (R := fun q m => q = Mode.mark m) rfl ?_ ?_
  · intro p c rest hp hrel
    rw [hrel, Bool.eq_iff_iff, seen, Bool.and_eq_true, isPlaceholder_iff, decide_eq_true_iff]
    refine and_congr_left fun hc => ?_
    have hsimple := h p c rest hp (Or.inr hc)
    change _ ↔ (run p).outside = true
    change (run p).mark.isNone = true ↔ _
    revert hsimple
    generalize run p = m
    cases m <;> simp [Mode.mark, Mode.simple, Mode.outside]
  · intro p c rest hp hrel
    rw [hrel]
    exact mark_step fun hc => h p c rest hp (Or.inl hc)

/-- The statement goes out with its placeholders numbered and the number of its parameters, exactly
when the quotation marks before each `?` pair up as PostgreSQL reads them and the parameters can be
counted in 16 bits. -/
theorem placeholders_iff [DoubleOps] (sql : Bytes) (params : List DbParam) :
    (placeholders none 0 sql = withNumbers sql ∧
      announced (bindBody params) = params.length) ↔
    MarksAgree sql ∧ params.length < 65536 :=
  and_congr (placeholders_eq_iff sql) (announced_iff params)

/-- The apostrophe in the comment opens a string for the loop. -/
theorem placeholder_after_comment :
    ¬ ∀ sql : Bytes, Closed sql → placeholders none 0 sql = withNumbers sql := by
  intro h
  have hplaceholder := h (ascii "SELECT 1 -- it's\n, ?") (Or.inl (by decide))
  exact absurd hplaceholder (by decide +kernel)

end PgLex

end Look
