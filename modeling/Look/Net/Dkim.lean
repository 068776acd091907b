/-
The relaxed canonicalisations of DKIM: `canon_header_relaxed` and `canon_body_relaxed`, and those of
RFC 6376, sections 3.4.2 and 3.4.4.
-/
import Look.Lib.Find
import Mathlib.Data.List.DropRight

namespace Look

namespace Dkim

abbrev Bytes := List UInt8

def tab : UInt8 := 0x09
def lf : UInt8 := 0x0A
def cr : UInt8 := 0x0D
def sp : UInt8 := 0x20
def colon : UInt8 := 0x3A
def crlf : Bytes := [cr, lf]

def wsp (c : UInt8) : Bool := c = sp || c = tab

def lower (c : UInt8) : UInt8 := if 0x41 ≤ c ∧ c ≤ 0x5A then c + 0x20 else c

/-- A text without the white space at its end. -/
def trimEnd (s : Bytes) : Bytes := s.rdropWhile wsp

def trim (s : Bytes) : Bytes := trimEnd (s.dropWhile wsp)

/-! ## The code -/

/-- The loop that unfolds a value: a CRLF and the white space behind it are one space.  `skip` says
that white space is being left out. -/
def unfoldLoop : Bool → Bytes → Bytes
  | _, [] => []
  | skip, [c] => if skip && wsp c then [] else [c]
  | skip, c :: d :: s =>
    if skip && wsp c then unfoldLoop true (d :: s)
    else if c = cr && d = lf then sp :: unfoldLoop true s
    else c :: unfoldLoop false (d :: s)

/-- The loop over the characters of a value: `inWs` says that a space has just been written. -/
def compress : Bool → Bytes → Bytes
  | _, [] => []
  | inWs, c :: s =>
    if wsp c then if inWs then compress true s else sp :: compress true s
    else c :: compress false s

def canonName (name : Bytes) : Bytes := name.map lower

def canonValue (value : Bytes) : Bytes := compress false (trim (unfoldLoop false value))

def canonHeaderRelaxed (name value : Bytes) : Bytes := canonName name ++ [colon] ++ canonValue value

/-- A line without one carriage return at its end, and without the white space before that. -/
def canonLine (line : Bytes) : Bytes :=
  trimEnd (if line.getLast? = some cr then line.dropLast else line)

def canonBodyRelaxed (body : Bytes) : Bytes :=
  let lines := ((getlines lf body).map canonLine).rdropWhile List.isEmpty
  let out := lines.flatMap (· ++ crlf)
  if out = [] then crlf else out

/-! ## RFC 6376 -/

/-- A CRLF before white space is left out. -/
def unfold : Bytes → Bytes
  | a :: b :: s =>
    if a = cr && b = lf && s.head?.any wsp then unfold s else a :: unfold (b :: s)
  | s => s

/-- White space in a row is one space. -/
def squeeze : Bytes → Bytes
  | a :: b :: s =>
    if wsp a then if wsp b then squeeze (b :: s) else sp :: squeeze (b :: s)
    else a :: squeeze (b :: s)
  | [a] => [if wsp a then sp else a]
  | [] => []

/-- Section 3.4.2. -/
def relaxedHeader (name value : Bytes) : Bytes :=
  trimEnd (squeeze (name.map lower)) ++ [colon] ++ trim (squeeze (unfold value))

/-- The lines of a body, each without its CRLF. -/
def crlfLines : Bytes → List Bytes
  | [] => []
  | [a] => [[a]]
  | a :: b :: s =>
    if a = cr && b = lf then [] :: crlfLines s
    else
      match crlfLines (b :: s) with
      | [] => [[a]]
      | l :: ls => (a :: l) :: ls

/-- Section 3.4.4. -/
def relaxedBody (body : Bytes) : Bytes :=
  (((crlfLines body).map fun l => trimEnd (squeeze l)).rdropWhile List.isEmpty).flatMap (· ++ crlf)

/-! ## When they agree -/

/-- Every CRLF stands before white space. -/
def folded : Bytes → Bool
  | a :: b :: s => (!(a = cr && b = lf) || s.head?.any wsp) && folded (b :: s)
  | _ => true

/-- White space is single spaces. -/
def Single (s : Bytes) : Prop := tab ∉ s ∧ ¬ [sp, sp] <:+: s

/-- The name has single spaces only and none at its end, and the value is folded well. -/
def HeaderOk (name value : Bytes) : Prop :=
  Single name ∧ (∀ c ∈ name.getLast?, wsp c = false) ∧ folded value = true

def blank (l : Bytes) : Bool := l.all wsp

/-- A line of the body is not blank, no LF stands alone, and the white space inside of the lines is
single spaces. -/
def BodyOk (body : Bytes) : Prop :=
  (∃ l ∈ crlfLines body, blank l = false) ∧
    ∀ l ∈ crlfLines body, lf ∉ l ∧ Single (trimEnd l)

/-! ## White space -/

section Spaces

variable {s t w : Bytes} {b : Bool} {c : UInt8}

theorem not_wsp_cr : wsp cr = false := by decide

theorem not_wsp_lf : wsp lf = false := by decide

/-- The last character that is not white space. -/
theorem spaces_cases (s : Bytes) :
    (∀ c ∈ s, wsp c = true) ∨
      ∃ t c w, s = t ++ c :: w ∧ wsp c = false ∧ ∀ d ∈ w, wsp d = true := by
  induction s with
  | nil => exact .inl nofun
  | cons c s ih =>
    rcases ih with hall | ⟨t, d, w, rfl, hd, hw⟩
    · cases hc : wsp c with
      | false => exact .inr ⟨[], c, s, rfl, hc, hall⟩
      | true => exact .inl (List.forall_mem_cons.mpr ⟨hc, hall⟩)
    · exact .inr ⟨c :: t, d, w, rfl, hd, hw⟩

theorem trimEnd_of_all (h : ∀ c ∈ s, wsp c = true) : trimEnd s = [] :=
  List.rdropWhile_eq_nil_iff.mpr h

theorem trimEnd_append_cons (hc : wsp c = false) (hw : ∀ d ∈ w, wsp d = true) :
    trimEnd (t ++ c :: w) = t ++ [c] := by
  induction w using List.reverseRecOn with
  | nil => exact List.rdropWhile_concat_neg wsp t c (by rw [hc]; exact Bool.false_ne_true)
  | append_singleton w d ih =>
    have hd := hw d (List.mem_append_right w (List.mem_singleton_self d))
    rw [← List.cons_append, ← List.append_assoc, trimEnd, List.rdropWhile_concat_pos wsp _ d hd]
    exact ih fun e he => hw e (List.mem_append_left _ he)

theorem trimEnd_eq_self_iff : trimEnd s = s ↔ ∀ c ∈ s.getLast?, wsp c = false := by
  rw [trimEnd, List.rdropWhile_eq_self_iff]
  constructor
  · intro h c hc
    obtain ⟨t, rfl⟩ := List.getLast?_eq_some_iff.mp hc
    have hlast := h (List.append_ne_nil_of_right_ne_nil t (List.cons_ne_nil c []))
    rw [List.getLast_concat] at hlast
    exact Bool.eq_false_iff.mpr hlast
  · intro h hne hlast
    rw [h _ (List.getLast?_eq_some_getLast hne)] at hlast
    exact Bool.false_ne_true hlast

theorem trimEnd_trimEnd (s : Bytes) : trimEnd (trimEnd s) = trimEnd s :=
  List.rdropWhile_idempotent wsp s

theorem dropWhile_append_cons (hc : wsp c = false) (hw : ∀ d ∈ w, wsp d = true) :
    (w ++ c :: t).dropWhile wsp = c :: t := by
  rw [List.dropWhile_append_of_pos hw,
    List.dropWhile_cons_of_neg (by rw [hc]; exact Bool.false_ne_true)]

/-- The first character that is not white space. -/
theorem spaces_cases' (s : Bytes) :
    (∀ c ∈ s, wsp c = true) ∨
      ∃ w c t, s = w ++ c :: t ∧ wsp c = false ∧ ∀ d ∈ w, wsp d = true := by
  rcases first_or_none (fun c => wsp c = false) s with ⟨w, c, t, rfl, hw, hc⟩ | hnone
  · exact .inr ⟨w, c, t, rfl, hc, fun d hd => (Bool.not_eq_false _).mp (hw d hd)⟩
  · exact .inl fun c hc => (Bool.not_eq_false _).mp (hnone c hc)

/-! ## Compression -/

theorem compress_wsp (hc : wsp c = true) :
    compress b (c :: s) = if b then compress true s else sp :: compress true s := by
  rw [compress, if_pos hc]

theorem compress_cons (hc : wsp c = false) : compress b (c :: s) = c :: compress false s := by
  rw [compress, hc, if_neg Bool.false_ne_true]

theorem compress_all (h : ∀ c ∈ s, wsp c = true) : ∀ c ∈ compress b s, wsp c = true := by
  induction s generalizing b with
  | nil => exact nofun
  | cons c s ih =>
    obtain ⟨hc, hs⟩ := List.forall_mem_cons.mp h
    rw [compress_wsp hc]
    cases b with
    | true => exact ih hs
    | false => exact List.forall_mem_cons.mpr ⟨rfl, ih hs⟩

/-- A character that is not white space comes through, and begins anew. -/
theorem compress_append_cons (hc : wsp c = false) :
    compress b (t ++ c :: s) = compress b t ++ c :: compress false s := by
  induction t generalizing b with
  | nil => exact compress_cons hc
  | cons d t ih =>
    cases hd : wsp d with
    | false => rw [List.cons_append, compress_cons hd, compress_cons hd, ih, List.cons_append]
    | true =>
      rw [List.cons_append, compress_wsp hd, compress_wsp hd, ih]
      cases b <;> rfl

theorem trimEnd_compress (b : Bool) (s : Bytes) :
    trimEnd (compress b s) = compress b (trimEnd s) := by
  rcases spaces_cases s with hall | ⟨t, c, w, rfl, hc, hw⟩
  · rw [trimEnd_of_all hall, trimEnd_of_all (compress_all hall)]
    rfl
  · rw [compress_append_cons hc, trimEnd_append_cons hc (compress_all hw),
      trimEnd_append_cons hc hw, compress_append_cons hc]
    rfl

theorem dropWhile_compress (b : Bool) (s : Bytes) :
    (compress b s).dropWhile wsp = compress false (s.dropWhile wsp) := by
  rcases spaces_cases' s with hall | ⟨w, c, t, rfl, hc, hw⟩
  · rw [List.dropWhile_eq_nil_iff.mpr hall, List.dropWhile_eq_nil_iff.mpr (compress_all hall)]
    rfl
  · rw [compress_append_cons hc, dropWhile_append_cons hc (compress_all hw),
      dropWhile_append_cons hc hw, compress_cons hc]

theorem trim_compress (s : Bytes) : trim (compress false s) = compress false (trim s) := by
  rw [trim, dropWhile_compress, trimEnd_compress, ← trim]

theorem compress_true (s : Bytes) : compress true s = compress false (s.dropWhile wsp) := by
  induction s with
  | nil => rfl
  | cons c s ih =>
    cases hc : wsp c with
    | false =>
      rw [List.dropWhile_cons_of_neg (by rw [hc]; exact Bool.false_ne_true), compress_cons hc,
        compress_cons hc]
    | true =>
      rw [List.dropWhile_cons_of_pos hc, compress_wsp hc]
      exact ih

theorem compress_compress (b : Bool) (s : Bytes) :
    compress false (compress b s) = compress b s := by
  induction s generalizing b with
  | nil => rfl
  | cons c s ih =>
    cases hc : wsp c with
    | false => rw [compress_cons hc, compress_cons hc, ih]
    | true =>
      have htrue : compress true (compress true s) = compress true s := by
        rw [compress_true (compress true s), dropWhile_compress, ← compress_true]
        exact ih true
      cases b with
      | true =>
        rw [compress_wsp hc]
        exact ih true
      | false =>
        rw [compress_wsp hc, if_neg Bool.false_ne_true, compress_wsp rfl, htrue]
        rfl

theorem squeeze_cons (hc : wsp c = false) : squeeze (c :: s) = c :: squeeze s := by
  cases s with
  | nil => rw [squeeze, hc]; rfl
  | cons d s => rw [squeeze, hc]; rfl

theorem squeeze_wsp (hc : wsp c = true) : squeeze (c :: s) = sp :: squeeze (s.dropWhile wsp) := by
  induction s generalizing c with
  | nil => rw [squeeze, if_pos hc]; rfl
  | cons d s ih =>
    rw [squeeze, if_pos hc]
    cases hd : wsp d with
    | false =>
      rw [List.dropWhile_cons_of_neg (by rw [hd]; exact Bool.false_ne_true)]
      rfl
    | true =>
      rw [List.dropWhile_cons_of_pos hd, if_pos rfl]
      exact ih hd

/-- The two ways to write spaces in a row once. -/
theorem squeeze_eq (s : Bytes) : squeeze s = compress false s := by
  induction h : s.length using Nat.strong_induction_on generalizing s with
  | _ n ih =>
    cases s with
    | nil => rfl
    | cons c s =>
      have hs := ih s.length (h ▸ Nat.lt_succ_self _) s rfl
      cases hc : wsp c with
      | false => rw [squeeze_cons hc, compress_cons hc, hs]
      | true =>
        have hlt : (s.dropWhile wsp).length < n :=
          h ▸ Nat.lt_succ_of_le (List.dropWhile_sublist wsp).length_le
        rw [squeeze_wsp hc, compress_wsp hc, if_neg Bool.false_ne_true, compress_true,
          ih _ hlt _ rfl]

end Spaces

/-! ## The value of a header -/

section Value

variable {s t : Bytes} {b : Bool} {c d : UInt8}

/-- A CRLF stands in the text. -/
def hasCrlf : Bytes → Bool
  | [] => false
  | c :: s => (c = cr && s.head? = some lf) || hasCrlf s

theorem hasCrlf_cons (h : c ≠ cr) : hasCrlf (c :: s) = hasCrlf s := by
  rw [hasCrlf, decide_eq_false h, Bool.false_and, Bool.false_or]

theorem wsp_ne (h : wsp c = true) : c ≠ cr ∧ c ≠ lf := by
  constructor <;>
  · rintro rfl
    exact absurd h (by decide)

theorem head?_compress_lf (s : Bytes) :
    (compress false s).head? = some lf ↔ s.head? = some lf := by
  cases s with
  | nil => exact Iff.rfl
  | cons d s =>
    cases hd : wsp d with
    | false => rw [compress_cons hd]; exact Iff.rfl
    | true =>
      rw [compress_wsp hd, if_neg Bool.false_ne_true]
      refine iff_of_false (fun h => ?_) fun h => (wsp_ne hd).2 (Option.some.inj h)
      exact absurd (Option.some.inj h) (by decide)

theorem hasCrlf_compress (b : Bool) (s : Bytes) : hasCrlf (compress b s) = hasCrlf s := by
  induction s generalizing b with
  | nil => rfl
  | cons c s ih =>
    cases hc : wsp c with
    | false =>
      rw [compress_cons hc, hasCrlf, hasCrlf, ih, decide_eq_decide.mpr (head?_compress_lf s)]
    | true =>
      rw [compress_wsp hc, hasCrlf_cons (wsp_ne hc).1]
      cases b with
      | true => exact ih true
      | false => exact (hasCrlf_cons (by decide)).trans (ih true)

theorem hasCrlf_dropWhile (s : Bytes) : hasCrlf (s.dropWhile wsp) = hasCrlf s := by
  induction s with
  | nil => rfl
  | cons c s ih =>
    cases hc : wsp c with
    | false => rw [List.dropWhile_cons_of_neg (by rw [hc]; exact Bool.false_ne_true)]
    | true => rw [List.dropWhile_cons_of_pos hc, hasCrlf_cons (wsp_ne hc).1, ih]

theorem hasCrlf_all (h : ∀ c ∈ s, wsp c = true) : hasCrlf s = false := by
  induction s with
  | nil => rfl
  | cons c s ih =>
    obtain ⟨hc, hs⟩ := List.forall_mem_cons.mp h
    rw [hasCrlf_cons (wsp_ne hc).1, ih hs]

theorem hasCrlf_trimEnd (s : Bytes) : hasCrlf (trimEnd s) = hasCrlf s := by
  rcases spaces_cases s with hall | ⟨t, c, w, rfl, hc, hw⟩
  · rw [trimEnd_of_all hall, hasCrlf_all hall]
    rfl
  · rw [trimEnd_append_cons hc hw]
    induction t with
    | nil =>
      have hhead : w.head? ≠ some lf := by
        intro h
        exact (wsp_ne (hw lf (List.mem_of_mem_head? h))).2 rfl
      rw [List.nil_append, List.nil_append, hasCrlf.eq_2 c w, hasCrlf_all hw,
        decide_eq_false hhead]
      rfl
    | cons a t ih =>
      rw [List.cons_append, List.cons_append, hasCrlf, hasCrlf, ih]
      cases t <;> rfl

theorem head?_unfoldLoop (h : (unfoldLoop false (d :: s)).head? = some lf) : d = lf := by
  cases s with
  | nil => exact Option.some.inj h
  | cons e s =>
    rw [unfoldLoop, Bool.false_and, if_neg Bool.false_ne_true] at h
    split at h
    · exact absurd (Option.some.inj h) (by decide)
    · exact Option.some.inj h

theorem hasCrlf_unfoldLoop (skip : Bool) : ∀ s : Bytes, hasCrlf (unfoldLoop skip s) = false
  | [] => rfl
  | [c] => by
    rw [unfoldLoop]
    split
    · rfl
    · simp [hasCrlf]
  | c :: d :: s => by
    rw [unfoldLoop]
    split
    · exact hasCrlf_unfoldLoop true (d :: s)
    · split
      · exact (hasCrlf_cons (by decide)).trans (hasCrlf_unfoldLoop true s)
      · rename_i hpair
        rw [hasCrlf, hasCrlf_unfoldLoop false (d :: s), Bool.or_false, Bool.eq_false_iff]
        intro h
        rw [Bool.and_eq_true, decide_eq_true_eq, decide_eq_true_eq] at h
        refine hpair ?_
        rw [h.1, head?_unfoldLoop h.2]
        rfl

theorem unfold_cons (h : c ≠ cr) : unfold (c :: s) = c :: unfold s := by
  cases s with
  | nil => rfl
  | cons d s => rw [unfold, decide_eq_false h]; rfl

theorem folded_cons (h : c ≠ cr) : folded (c :: s) = folded s := by
  cases s with
  | nil => rfl
  | cons d s => rw [folded, decide_eq_false h]; rfl

theorem compress_true_wsp (hc : wsp c = true) : compress true (c :: s) = compress true s := by
  rw [compress_wsp hc, if_pos rfl]

/-- One more character in front of two texts that are compressed alike. -/
theorem compress_congr (h : ∀ b, compress b s = compress b t) (b : Bool) (c : UInt8) :
    compress b (c :: s) = compress b (c :: t) := by
  cases hc : wsp c with
  | false => rw [compress_cons hc, compress_cons hc, h]
  | true => rw [compress_wsp hc, compress_wsp hc, h]

/-- Where every CRLF stands before white space, the loop leaves as much white space. -/
theorem compress_unfoldLoop : ∀ s : Bytes, folded s = true →
    (∀ b, compress b (unfoldLoop false s) = compress b (unfold s)) ∧
      compress true (unfoldLoop true s) = compress true (unfold s)
  | [], _ => ⟨fun _ => rfl, rfl⟩
  | [c], _ => by
    refine ⟨fun _ => rfl, ?_⟩
    rw [unfoldLoop, Bool.true_and, unfold]
    · split
      · rename_i hc
        rw [compress_true_wsp hc]
      · rfl
    · exact nofun
  | c :: d :: s, h => by
    by_cases hpair : (c = cr && d = lf) = true
    · -- The white space behind the CRLF is there, and one space is left of it.
      obtain ⟨rfl, rfl⟩ : c = cr ∧ d = lf := by simpa using hpair
      rw [folded, hpair, Bool.and_eq_true, folded_cons (by decide)] at h
      obtain ⟨hnext, hrest⟩ := h
      obtain ⟨-, ih⟩ := compress_unfoldLoop s hrest
      obtain ⟨w, s', rfl, hw⟩ : ∃ w s', s = w :: s' ∧ wsp w = true := by
        cases s with
        | nil => exact absurd hnext (by decide)
        | cons w s' => exact ⟨w, s', rfl, by simpa using hnext⟩
      have hloop : ∀ skip,
          unfoldLoop skip (cr :: lf :: w :: s') = sp :: unfoldLoop true (w :: s') := by
        intro skip
        rw [unfoldLoop, not_wsp_cr, Bool.and_false, if_neg Bool.false_ne_true, if_pos hpair]
      have hwhole : unfold (cr :: lf :: w :: s') = w :: unfold s' := by
        rw [unfold, hpair, if_pos (by simpa using hw), unfold_cons (wsp_ne hw).1]
      rw [unfold_cons (wsp_ne hw).1, compress_true_wsp hw] at ih
      have hspace : ∀ b,
          compress b (sp :: unfoldLoop true (w :: s')) = compress b (w :: unfold s') := by
        intro b
        rw [compress_wsp rfl, compress_wsp hw, ih]
      rw [hloop, hloop, hwhole]
      exact ⟨hspace, hspace true⟩
    · rw [folded, (Bool.not_eq_true _).mp hpair] at h
      obtain ⟨ih, ih'⟩ := compress_unfoldLoop (d :: s) h
      have hwhole : unfold (c :: d :: s) = c :: unfold (d :: s) := by
        rw [unfold, (Bool.not_eq_true _).mp hpair, Bool.false_and, if_neg Bool.false_ne_true]
      have hplain : ∀ b, compress b (c :: unfoldLoop false (d :: s)) =
          compress b (c :: unfold (d :: s)) := fun b => compress_congr ih b c
      rw [hwhole, unfoldLoop, unfoldLoop, if_neg hpair, Bool.false_and, Bool.true_and,
        if_neg Bool.false_ne_true]
      refine ⟨hplain, ?_⟩
      split
      · rename_i hc
        rw [compress_true_wsp hc, ih']
      · exact hplain true

/-- A CRLF before something else is not unfolded. -/
theorem hasCrlf_unfold : ∀ s : Bytes, folded s = false → hasCrlf (unfold s) = true
  | [], h => absurd h (by decide)
  | [c], h => absurd h Bool.true_eq_false.mp
  | c :: d :: s, h => by
    by_cases hpair : (c = cr && d = lf) = true
    · obtain ⟨rfl, rfl⟩ : c = cr ∧ d = lf := by simpa using hpair
      rw [folded, hpair, folded_cons (by decide)] at h
      rw [unfold, hpair]
      cases hnext : s.head?.any wsp with
      | true =>
        rw [hnext] at h
        exact hasCrlf_unfold s h
      | false =>
        rw [Bool.and_false, if_neg Bool.false_ne_true, unfold_cons (by decide)]
        rfl
    · rw [folded, (Bool.not_eq_true _).mp hpair] at h
      rw [unfold, (Bool.not_eq_true _).mp hpair, Bool.false_and, if_neg Bool.false_ne_true, hasCrlf,
        hasCrlf_unfold (d :: s) h, Bool.or_true]

end Value

/-- The value of a header is canonical where it is folded well, and nowhere else. -/
theorem canonValue_iff (value : Bytes) :
    canonValue value = trim (squeeze (unfold value)) ↔ folded value = true := by
  rw [squeeze_eq, canonValue, ← trim_compress]
  constructor
  · intro h
    by_contra hfolded
    have hleft : hasCrlf (trim (compress false (unfoldLoop false value))) = false := by
      rw [trim, hasCrlf_trimEnd, hasCrlf_dropWhile, hasCrlf_compress, hasCrlf_unfoldLoop]
    have hright : hasCrlf (trim (compress false (unfold value))) = true := by
      rw [trim, hasCrlf_trimEnd, hasCrlf_dropWhile, hasCrlf_compress,
        hasCrlf_unfold value ((Bool.not_eq_true _).mp hfolded)]
    rw [h, hright] at hleft
    exact absurd hleft (by decide)
  · intro h
    rw [(compress_unfoldLoop value h).1 false]

/-! ## The name of a header -/

section Name

variable {s t : Bytes} {c : UInt8}

theorem length_compress_le (b : Bool) (s : Bytes) : (compress b s).length ≤ s.length := by
  induction s generalizing b with
  | nil => exact Nat.le_refl 0
  | cons c s ih =>
    cases hc : wsp c with
    | false =>
      rw [compress_cons hc]
      exact Nat.succ_le_succ (ih false)
    | true =>
      rw [compress_wsp hc]
      cases b with
      | true => exact Nat.le_succ_of_le (ih true)
      | false => exact Nat.succ_le_succ (ih true)

theorem single_cons (hc : wsp c = false) : Single (c :: s) ↔ Single s := by
  have htab : tab ≠ c := by
    rintro rfl
    exact absurd hc (by decide)
  have hsp : ¬ [sp, sp] <+: c :: s := by
    intro h
    obtain ⟨rfl, -⟩ := List.cons_prefix_cons.mp h
    exact absurd hc (by decide)
  rw [Single, Single, List.mem_cons, or_iff_right htab, List.infix_cons_iff, or_iff_right hsp]

theorem dropWhile_ne_self (hc : wsp c = true) : (c :: s).dropWhile wsp ≠ c :: s := by
  intro h
  have hle := (List.dropWhile_sublist (l := s) wsp).length_le
  rw [List.dropWhile_cons_of_pos hc] at h
  rw [h, List.length_cons] at hle
  exact Nat.not_succ_le_self _ hle

theorem single_wsp (hc : wsp c = true) :
    Single (c :: s) ↔ c = sp ∧ s.dropWhile wsp = s ∧ Single s := by
  rw [Single, Single, List.mem_cons, not_or, List.infix_cons_iff, not_or]
  have hkind : c = sp ∨ c = tab := by simpa [wsp] using hc
  constructor
  · rintro ⟨⟨hne, htab⟩, hpre, hinfix⟩
    obtain rfl : c = sp := hkind.resolve_right (Ne.symm hne)
    refine ⟨rfl, ?_, htab, hinfix⟩
    cases s with
    | nil => rfl
    | cons d s =>
      refine List.dropWhile_cons_of_neg fun hd => ?_
      have hd' : d = sp ∨ d = tab := by simpa [wsp] using hd
      rcases hd' with rfl | rfl
      · exact hpre (List.prefix_append [sp, sp] s)
      · exact htab List.mem_cons_self
  · rintro ⟨rfl, hdrop, htab, hinfix⟩
    refine ⟨⟨by decide, htab⟩, ?_, hinfix⟩
    rintro ⟨r, hr⟩
    obtain rfl := (List.cons.inj hr).2
    exact dropWhile_ne_self rfl hdrop

/-- A text with single spaces only is not compressed, and no other text is left as it is. -/
theorem compress_eq_self_iff (s : Bytes) : compress false s = s ↔ Single s := by
  induction s with
  | nil => exact iff_of_true rfl ⟨List.not_mem_nil, by decide⟩
  | cons c s ih =>
    cases hc : wsp c with
    | false => rw [compress_cons hc, single_cons hc, List.cons.injEq, and_iff_right rfl, ih]
    | true =>
      rw [compress_wsp hc, if_neg Bool.false_ne_true, single_wsp hc, List.cons.injEq,
        compress_true, ← ih, eq_comm (a := sp)]
      refine and_congr_right fun _ => ?_
      constructor
      · intro h
        have hle := length_compress_le false (s.dropWhile wsp)
        rw [h] at hle
        have hdrop := (List.dropWhile_sublist wsp).eq_of_length_le hle
        rw [hdrop] at h
        exact ⟨hdrop, h⟩
      · rintro ⟨hdrop, h⟩
        rw [hdrop, h]

/-- A name is canonical as it is where its white space is single spaces, and none at its end. -/
theorem relaxedName_iff (s : Bytes) :
    trimEnd (squeeze s) = s ↔ Single s ∧ ∀ c ∈ s.getLast?, wsp c = false := by
  rw [squeeze_eq, trimEnd_compress, ← compress_eq_self_iff, ← trimEnd_eq_self_iff]
  constructor
  · intro h
    have hle := length_compress_le false (trimEnd s)
    rw [h] at hle
    have htrim := (List.rdropWhile_prefix wsp s).eq_of_length_le hle
    rw [← trimEnd] at htrim
    rw [htrim] at h
    exact ⟨h, htrim⟩
  · rintro ⟨h, htrim⟩
    rw [htrim, h]

theorem head_compress_true (s x : Bytes) :
    ∃ d t, compress true s ++ colon :: x = d :: t ∧ wsp d = false := by
  induction s with
  | nil => exact ⟨colon, x, rfl, rfl⟩
  | cons c s ih =>
    cases hc : wsp c with
    | false =>
      rw [compress_cons hc]
      exact ⟨c, _, rfl, hc⟩
    | true =>
      rw [compress_true_wsp hc]
      exact ih

/-- A name that is changed differs before the colon. -/
theorem compress_before_colon {w x y : Bytes} (hw : ∀ c ∈ w, wsp c = true)
    (h : compress false s ++ colon :: x = s ++ (w ++ colon :: y)) :
    compress false s = s ∧ w = [] := by
  induction s with
  | nil =>
    refine ⟨rfl, ?_⟩
    cases w with
    | nil => rfl
    | cons d w =>
      obtain rfl : colon = d := (List.cons.inj h).1
      exact absurd (hw colon List.mem_cons_self) (by decide)
  | cons c s ih =>
    cases hc : wsp c with
    | false =>
      rw [compress_cons hc] at h ⊢
      obtain ⟨hs, hnil⟩ := ih (List.cons.inj h).2
      exact ⟨by rw [hs], hnil⟩
    | true =>
      rw [compress_wsp hc, if_neg Bool.false_ne_true] at h ⊢
      obtain ⟨hc', htail⟩ := List.cons.inj h
      obtain ⟨d, t, hd, hnot⟩ := head_compress_true s x
      have hdrop : s.dropWhile wsp = s := by
        cases s with
        | nil => rfl
        | cons e s =>
          rw [List.append_eq, hd] at htail
          obtain rfl : d = e := (List.cons.inj htail).1
          exact List.dropWhile_cons_of_neg (by rw [hnot]; exact Bool.false_ne_true)
      rw [List.append_eq, compress_true, hdrop] at htail
      obtain ⟨hs, hnil⟩ := ih htail
      exact ⟨by rw [compress_true, hdrop, hs, hc'], hnil⟩

theorem toNat_lower (h : 0x41 ≤ c ∧ c ≤ 0x5A) :
    (c + 0x20).toNat = c.toNat + 32 ∧ 65 ≤ c.toNat ∧ c.toNat ≤ 90 := by
  have hlow : 65 ≤ c.toNat := UInt8.le_iff_toNat_le.mp h.1
  have hhigh : c.toNat ≤ 90 := UInt8.le_iff_toNat_le.mp h.2
  refine ⟨?_, hlow, hhigh⟩
  rw [UInt8.toNat_add]
  exact Nat.mod_eq_of_lt (by change c.toNat + 32 < 256; omega)

/-- Lower case leaves white space alone. -/
theorem lower_eq {d : UInt8} (hd : d < 0x61) : lower c = d → c = d := by
  rw [lower]
  split
  · rename_i hc
    rintro rfl
    obtain ⟨hnum, hlow, -⟩ := toNat_lower hc
    have hlt := UInt8.lt_iff_toNat_lt.mp hd
    rw [hnum] at hlt
    change c.toNat + 32 < 97 at hlt
    omega
  · exact id

theorem lower_lower (c : UInt8) : lower (lower c) = lower c := by
  by_cases hc : 0x41 ≤ c ∧ c ≤ 0x5A
  · obtain ⟨hnum, hlow, -⟩ := toNat_lower hc
    have hnot : ¬ (0x41 ≤ c + 0x20 ∧ c + 0x20 ≤ 0x5A) := by
      rintro ⟨-, hle⟩
      have hle' := UInt8.le_iff_toNat_le.mp hle
      rw [hnum] at hle'
      change c.toNat + 32 ≤ 90 at hle'
      omega
    have hup : lower c = c + 0x20 := if_pos hc
    rw [hup]
    exact if_neg hnot
  · have hself : lower c = c := if_neg hc
    rw [hself, hself]

theorem lower_eq_sp : lower c = sp ↔ c = sp :=
  ⟨lower_eq (by decide), by rintro rfl; rfl⟩

theorem lower_eq_tab : lower c = tab ↔ c = tab :=
  ⟨lower_eq (by decide), by rintro rfl; rfl⟩

theorem wsp_lower (c : UInt8) : wsp (lower c) = wsp c := by
  rw [wsp, wsp, decide_eq_decide.mpr lower_eq_sp, decide_eq_decide.mpr lower_eq_tab]

theorem single_map_lower (s : Bytes) : Single (s.map lower) ↔ Single s := by
  induction s with
  | nil => exact Iff.rfl
  | cons c s ih =>
    rw [List.map_cons]
    cases hc : wsp c with
    | false => rw [single_cons hc, single_cons ((wsp_lower c).trans hc), ih]
    | true =>
      have hdrop : (s.map lower).dropWhile wsp = s.map lower ↔ s.dropWhile wsp = s := by
        cases s with
        | nil => exact Iff.rfl
        | cons d s =>
          cases hd : wsp d with
          | false =>
            have hneg : ¬ wsp d = true := by rw [hd]; exact Bool.false_ne_true
            refine iff_of_true (List.dropWhile_cons_of_neg ?_) (List.dropWhile_cons_of_neg hneg)
            rwa [wsp_lower]
          | true =>
            exact iff_of_false (dropWhile_ne_self ((wsp_lower d).trans hd)) (dropWhile_ne_self hd)
      rw [single_wsp hc, single_wsp ((wsp_lower c).trans hc), lower_eq_sp, hdrop, ih]

theorem last_map_lower (s : Bytes) :
    (∀ c ∈ (s.map lower).getLast?, wsp c = false) ↔ ∀ c ∈ s.getLast?, wsp c = false := by
  rw [List.getLast?_map]
  cases s.getLast? with
  | none => exact iff_of_true nofun nofun
  | some d =>
    simp only [Option.map_some, Option.mem_some_iff, forall_eq', wsp_lower]

/-- The whole header is canonical where its name and its value are. -/
theorem canonHeaderRelaxed_iff (name value : Bytes) :
    canonHeaderRelaxed name value = relaxedHeader name value ↔ HeaderOk name value := by
  have hname := relaxedName_iff (name.map lower)
  rw [single_map_lower, last_map_lower] at hname
  rw [HeaderOk, ← and_assoc, ← hname, ← canonValue_iff, canonHeaderRelaxed, relaxedHeader,
    canonName, List.append_assoc, List.append_assoc, List.singleton_append, List.singleton_append]
  generalize name.map lower = n
  constructor
  · intro h
    have hsplit : trimEnd n ++ n.rtakeWhile wsp = n := List.rdropWhile_append_rtakeWhile
    rw [squeeze_eq, trimEnd_compress] at h ⊢
    have hbefore : compress false (trimEnd n) ++ colon :: trim (squeeze (unfold value)) =
        trimEnd n ++ (n.rtakeWhile wsp ++ colon :: canonValue value) := by
      rw [← List.append_assoc, hsplit, ← h]
    obtain ⟨hself, hnil⟩ := compress_before_colon (fun c => List.mem_rtakeWhile_imp) hbefore
    rw [hnil, List.append_nil] at hsplit
    rw [hself, hsplit] at h ⊢
    exact ⟨rfl, (List.cons.inj (List.append_cancel_left h)).2⟩
  · rintro ⟨hn, hv⟩
    rw [hn, hv]

end Name

/-! ## The lines of a body -/

section Lines

variable {s l : Bytes} {ls : List Bytes} {a b : UInt8}

/-- A character that begins no CRLF goes on with its line. -/
theorem crlfLines_cons (h : ¬ (a = cr ∧ s.head? = some lf)) :
    crlfLines (a :: s) =
      match crlfLines s with
      | [] => [[a]]
      | l :: ls => (a :: l) :: ls := by
  cases s with
  | nil => rfl
  | cons b s =>
    have hpair : ¬ (a = cr && b = lf) = true := by
      intro hpair
      rw [Bool.and_eq_true, decide_eq_true_eq, decide_eq_true_eq] at hpair
      exact h ⟨hpair.1, by rw [hpair.2]; rfl⟩
    rw [crlfLines, if_neg hpair]

theorem not_pair (h : ¬ (a = cr && b = lf) = true) : ¬ (a = cr ∧ (b :: s).head? = some lf) := by
  rintro ⟨rfl, hb⟩
  obtain rfl := Option.some.inj hb
  exact h rfl

/-- A body that ends with a CRLF is its lines. -/
theorem crlfLines_join : ∀ s : Bytes, (s = [] ∨ crlf <:+ s) → s = (crlfLines s).flatMap (· ++ crlf)
  | [], _ => rfl
  | [a], h => by
    rcases h with h | h
    · cases h
    · exact absurd h.length_le (Nat.not_succ_le_self 1)
  | a :: b :: s, h => by
    have hsuf : crlf <:+ a :: b :: s := h.resolve_left (List.cons_ne_nil _ _)
    by_cases hpair : (a = cr && b = lf) = true
    · obtain ⟨rfl, rfl⟩ : a = cr ∧ b = lf := by simpa using hpair
      have hs : s = [] ∨ crlf <:+ s := by
        rcases List.suffix_cons_iff.mp hsuf with heq | hsuf
        · exact .inl (List.cons.inj (List.cons.inj heq).2).2.symm
        · rcases List.suffix_cons_iff.mp hsuf with heq | hsuf
          · exact absurd (List.cons.inj heq).1 (by decide)
          · exact .inr hsuf
      have ih := crlfLines_join s hs
      rw [crlfLines, if_pos hpair, List.flatMap_cons, ← ih]
      rfl
    · have hs : crlf <:+ b :: s := by
        rcases List.suffix_cons_iff.mp hsuf with heq | hsuf
        · obtain ⟨rfl, hrest⟩ := List.cons.inj heq
          obtain ⟨rfl, -⟩ := List.cons.inj hrest
          exact absurd rfl hpair
        · exact hsuf
      have ih := crlfLines_join (b :: s) (.inr hs)
      rw [crlfLines_cons (not_pair hpair)]
      cases hlines : crlfLines (b :: s) with
      | nil =>
        rw [hlines] at ih
        cases ih
      | cons l ls =>
        rw [hlines] at ih
        rw [ih]
        rfl

theorem head_crlfLines {ls : List Bytes} (h : crlfLines (b :: s) = l :: ls)
    (hl : l.head? = some lf) : b = lf := by
  by_cases hpair : b = cr ∧ s.head? = some lf
  · obtain ⟨rfl, hs⟩ := hpair
    cases s with
    | nil => cases hs
    | cons c s =>
      obtain rfl := Option.some.inj hs
      obtain ⟨rfl, -⟩ := List.cons.inj h
      cases hl
  · rw [crlfLines_cons hpair] at h
    split at h
    · obtain ⟨rfl, -⟩ := List.cons.inj h
      exact Option.some.inj hl
    · obtain ⟨rfl, -⟩ := List.cons.inj h
      exact Option.some.inj hl

theorem hasCrlf_of_mem_crlfLines : ∀ s : Bytes, ∀ l ∈ crlfLines s, hasCrlf l = false
  | [] => nofun
  | [a] => by
    intro l hl
    obtain rfl := List.mem_singleton.mp hl
    simp [hasCrlf]
  | a :: b :: s => by
    intro l hl
    by_cases hpair : (a = cr && b = lf) = true
    · rw [crlfLines, if_pos hpair] at hl
      rcases List.mem_cons.mp hl with rfl | hl
      · rfl
      · exact hasCrlf_of_mem_crlfLines s l hl
    · have ih := hasCrlf_of_mem_crlfLines (b :: s)
      rw [crlfLines_cons (not_pair hpair)] at hl
      cases hlines : crlfLines (b :: s) with
      | nil =>
        rw [hlines] at hl
        obtain rfl := List.mem_singleton.mp hl
        simp [hasCrlf]
      | cons m ms =>
        rw [hlines] at hl ih
        rcases List.mem_cons.mp hl with rfl | hl
        · have hfirst : (a = cr && m.head? = some lf) = false := by
            rw [Bool.eq_false_iff]
            intro h
            rw [Bool.and_eq_true, decide_eq_true_eq, decide_eq_true_eq] at h
            refine not_pair (s := s) hpair ⟨h.1, ?_⟩
            rw [head_crlfLines hlines h.2]
            rfl
          rw [hasCrlf, hfirst, ih m List.mem_cons_self]
          rfl
        · exact ih l (List.mem_cons_of_mem m hl)

theorem crlfLines_append (h : hasCrlf l = false) :
    crlfLines (l ++ (crlf ++ s)) = l :: crlfLines s := by
  induction l with
  | nil => rfl
  | cons a l ih =>
    rw [hasCrlf, Bool.or_eq_false_iff] at h
    have hpair : ¬ (a = cr ∧ (l ++ (crlf ++ s)).head? = some lf) := by
      rintro ⟨rfl, hhead⟩
      cases l with
      | nil => exact absurd (Option.some.inj hhead) (by decide)
      | cons b l =>
        obtain rfl := Option.some.inj hhead
        exact absurd h.1 (by simp)
    rw [List.cons_append, crlfLines_cons hpair, ih h.2]

/-- Lines that are put together are found again. -/
theorem crlfLines_flatMap (h : ∀ l ∈ ls, hasCrlf l = false) :
    crlfLines (ls.flatMap (· ++ crlf)) = ls := by
  induction ls with
  | nil => rfl
  | cons l ls ih =>
    obtain ⟨hl, hls⟩ := List.forall_mem_cons.mp h
    rw [List.flatMap_cons, List.append_assoc, crlfLines_append hl, ih hls]

end Lines

/-! ## The body -/

section Body

variable {body l : Bytes} {ls ms : List Bytes}

/-- The lines without the empty ones at the end. -/
def dropEmpty (ls : List Bytes) : List Bytes := ls.rdropWhile List.isEmpty

theorem mem_dropEmpty (h : l ∈ dropEmpty ls) : l ∈ ls :=
  (List.rdropWhile_prefix _ ls).mem h

theorem mem_dropEmpty_of_ne (h : l ∈ ls) (hne : l ≠ []) : l ∈ dropEmpty ls := by
  have hsplit : dropEmpty ls ++ ls.rtakeWhile List.isEmpty = ls :=
    List.rdropWhile_append_rtakeWhile
  rw [← hsplit] at h
  rcases List.mem_append.mp h with h | h
  · exact h
  · exact absurd (List.isEmpty_iff.mp (List.mem_rtakeWhile_imp h)) hne

/-- A function that leaves the blank lines empty, and no others, drops these at the end. -/
theorem dropEmpty_map {f : Bytes → Bytes} (hf : ∀ l, f l = [] ↔ blank l = true) (ls : List Bytes) :
    dropEmpty (ls.map f) = (ls.rdropWhile blank).map f := by
  induction ls using List.reverseRecOn with
  | nil => rfl
  | append_singleton ls l ih =>
    rw [dropEmpty, List.map_append, List.map_singleton]
    by_cases hall : blank l = true
    · rw [List.rdropWhile_concat_pos _ _ _ (List.isEmpty_iff.mpr ((hf l).mpr hall)),
        List.rdropWhile_concat_pos _ _ _ hall]
      exact ih
    · have hne : ¬ (f l).isEmpty = true := fun h => hall ((hf l).mp (List.isEmpty_iff.mp h))
      rw [List.rdropWhile_concat_neg _ _ _ hne, List.rdropWhile_concat_neg _ _ _ hall,
        List.map_append, List.map_singleton]

theorem trimEnd_eq_nil (l : Bytes) : trimEnd l = [] ↔ blank l = true := by
  rw [trimEnd, List.rdropWhile_eq_nil_iff, blank, List.all_eq_true]

theorem compress_eq_nil (l : Bytes) : compress false l = [] ↔ l = [] := by
  cases l with
  | nil => exact Iff.rfl
  | cons c l =>
    cases hc : wsp c with
    | false => rw [compress_cons hc]; exact iff_of_false nofun nofun
    | true => rw [compress_wsp hc]; exact iff_of_false nofun nofun

theorem relaxedLine_eq_nil (l : Bytes) : trimEnd (squeeze l) = [] ↔ blank l = true := by
  rw [squeeze_eq, trimEnd_compress, compress_eq_nil, trimEnd_eq_nil]

/-- A line is canonical with its end trimmed where it has single spaces only. -/
theorem relaxedLine_iff (l : Bytes) : trimEnd l = trimEnd (squeeze l) ↔ Single (trimEnd l) := by
  rw [squeeze_eq, trimEnd_compress, eq_comm, compress_eq_self_iff]

theorem canonLine_subset (l : Bytes) : canonLine l ⊆ l := by
  intro c hc
  have hmem := (List.rdropWhile_prefix wsp _).mem hc
  split at hmem
  · exact (List.dropLast_sublist _).mem hmem
  · exact hmem

/-- The lines of the code have no LF. -/
theorem lf_notMem_canonLine (h : l ∈ (getlines lf body).map canonLine) : lf ∉ l := by
  obtain ⟨m, hm, rfl⟩ := List.mem_map.mp h
  obtain ⟨x, ms, hsplit, hx, hms, -⟩ := exists_splitOn lf body
  have hpieces : ∀ y ∈ body.splitOn lf, lf ∉ y := by
    rw [hsplit]
    exact List.forall_mem_cons.mpr ⟨hx, hms⟩
  have hm' : m ∈ body.splitOn lf := by
    rw [getlines] at hm
    split at hm
    · exact (List.dropLast_sublist _).mem hm
    · exact hm
  exact fun hlf => hpieces m hm' (canonLine_subset m hlf)

theorem canonLine_cr (l : Bytes) : canonLine (l ++ [cr]) = trimEnd l := by
  rw [canonLine, List.getLast?_concat, if_pos rfl, List.dropLast_concat]

/-- Lines without an LF are the lines of the code. -/
theorem getlines_crlf (h : ∀ l ∈ ls, lf ∉ l) :
    (getlines lf (ls.flatMap (· ++ crlf))).map canonLine = ls.map trimEnd := by
  have hlines : ls.flatMap (· ++ crlf) = (ls.map (· ++ [cr])).flatMap (· ++ [lf]) := by
    rw [List.flatMap_map]
    simp only [List.append_assoc]
    rfl
  have hcr : ∀ l ∈ ls.map (· ++ [cr]), lf ∉ l := by
    intro l hl
    obtain ⟨m, hm, rfl⟩ := List.mem_map.mp hl
    rw [List.mem_append, not_or]
    exact ⟨h m hm, by decide⟩
  rw [hlines, getlines_terminated hcr, List.map_map]
  exact List.map_congr_left fun l _ => canonLine_cr l

theorem hasCrlf_of_notMem (h : lf ∉ l) : hasCrlf l = false := by
  induction l with
  | nil => rfl
  | cons c l ih =>
    rw [List.mem_cons, not_or] at h
    have hhead : l.head? ≠ some lf := fun hl => h.2 (List.mem_of_mem_head? hl)
    rw [hasCrlf, decide_eq_false hhead, Bool.and_false, ih h.2]
    rfl

theorem hasCrlf_squeeze (l : Bytes) : hasCrlf (trimEnd (squeeze l)) = hasCrlf l := by
  rw [hasCrlf_trimEnd, squeeze_eq, hasCrlf_compress]

theorem flatMap_crlf_eq_nil : ls.flatMap (· ++ crlf) = [] ↔ ls = [] := by
  cases ls with
  | nil => exact iff_of_true rfl rfl
  | cons l ls =>
    rw [List.flatMap_cons]
    refine iff_of_false (fun h => ?_) (List.cons_ne_nil l ls)
    exact absurd (List.append_eq_nil_iff.mp (List.append_eq_nil_iff.mp h).1).2 (by decide)

theorem dropEmpty_dropEmpty (ls : List Bytes) : dropEmpty (dropEmpty ls) = dropEmpty ls :=
  List.rdropWhile_idempotent _ ls

/-- The body that the code makes of its lines. -/
theorem canonBodyRelaxed_lines (body : Bytes) :
    let ms := dropEmpty ((getlines lf body).map canonLine)
    canonBodyRelaxed body = if ms = [] then crlf else ms.flatMap (· ++ crlf) := by
  rw [canonBodyRelaxed, ← dropEmpty]
  simp only [flatMap_crlf_eq_nil]

/-- The two bodies agree where their lines do, and there are lines. -/
theorem canonBodyRelaxed_eq_iff (body : Bytes) :
    canonBodyRelaxed body = relaxedBody body ↔
      dropEmpty ((getlines lf body).map canonLine) ≠ [] ∧
        dropEmpty ((getlines lf body).map canonLine) =
          dropEmpty ((crlfLines body).map fun l => trimEnd (squeeze l)) := by
  have hcode : ∀ l ∈ dropEmpty ((getlines lf body).map canonLine), hasCrlf l = false :=
    fun l hl => hasCrlf_of_notMem (lf_notMem_canonLine (mem_dropEmpty hl))
  have hspec : ∀ l ∈ dropEmpty ((crlfLines body).map fun l => trimEnd (squeeze l)),
      hasCrlf l = false := by
    intro l hl
    obtain ⟨m, hm, rfl⟩ := List.mem_map.mp (mem_dropEmpty hl)
    rw [hasCrlf_squeeze, hasCrlf_of_mem_crlfLines body m hm]
  have hlast := dropEmpty_dropEmpty ((crlfLines body).map fun l => trimEnd (squeeze l))
  rw [canonBodyRelaxed_lines, relaxedBody, ← dropEmpty]
  generalize dropEmpty ((getlines lf body).map canonLine) = ms at *
  generalize dropEmpty ((crlfLines body).map fun l => trimEnd (squeeze l)) = ns at *
  by_cases hms : ms = []
  · -- A single CRLF would be one empty line.
    rw [if_pos hms]
    refine iff_of_false (fun h => ?_) fun h => h.1 hms
    have hone : [[]] = ns := by
      rw [← crlfLines_flatMap hspec, ← h]
      rfl
    rw [← hone] at hlast
    exact absurd hlast (by decide)
  · rw [if_neg hms, and_iff_right hms]
    constructor
    · intro h
      rw [← crlfLines_flatMap hcode, h, crlfLines_flatMap hspec]
    · exact fun h => by rw [h]

theorem mem_trimEnd (hl : lf ∈ l) : lf ∈ trimEnd l := by
  have hsplit : trimEnd l ++ l.rtakeWhile wsp = l := List.rdropWhile_append_rtakeWhile
  rw [← hsplit] at hl
  rcases List.mem_append.mp hl with hl | hl
  · exact hl
  · exact absurd (List.mem_rtakeWhile_imp hl) (by decide)

theorem mem_relaxedLine (hl : lf ∈ l) : lf ∈ trimEnd (squeeze l) := by
  obtain ⟨t, s, rfl⟩ := List.append_of_mem hl
  refine mem_trimEnd ?_
  rw [squeeze_eq, compress_append_cons not_wsp_lf]
  exact List.mem_append_right _ List.mem_cons_self

theorem canonBodyRelaxed_iff (hbody : body = [] ∨ crlf <:+ body) :
    canonBodyRelaxed body = relaxedBody body ↔ BodyOk body := by
  have hjoin := crlfLines_join body hbody
  rw [canonBodyRelaxed_eq_iff, BodyOk]
  generalize hls : crlfLines body = ls at hjoin ⊢
  by_cases hlf : ∀ l ∈ ls, lf ∉ l
  · have hlines : (ls.rdropWhile blank).map trimEnd ≠ [] ↔ ∃ l ∈ ls, blank l = false := by
      rw [ne_eq, List.map_eq_nil_iff, List.rdropWhile_eq_nil_iff]
      simp only [not_forall, exists_prop, Bool.not_eq_true]
    have hsame : (ls.rdropWhile blank).map trimEnd =
        (ls.rdropWhile blank).map (fun l => trimEnd (squeeze l)) ↔
        ∀ l ∈ ls, lf ∉ l ∧ Single (trimEnd l) := by
      rw [List.map_inj_left]
      constructor
      · intro h l hl
        refine ⟨hlf l hl, ?_⟩
        have hsplit : ls.rdropWhile blank ++ ls.rtakeWhile blank = ls :=
          List.rdropWhile_append_rtakeWhile
        rw [← hsplit] at hl
        rcases List.mem_append.mp hl with hl | hl
        · exact (relaxedLine_iff l).mp (h l hl)
        · rw [(trimEnd_eq_nil l).mpr (List.mem_rtakeWhile_imp hl)]
          exact ⟨List.not_mem_nil, by decide⟩
      · intro h l hl
        exact (relaxedLine_iff l).mpr (h l ((List.rdropWhile_prefix _ ls).mem hl)).2
    rw [hjoin, getlines_crlf hlf, dropEmpty_map trimEnd_eq_nil, dropEmpty_map relaxedLine_eq_nil,
      hlines, hsame]
  · -- An LF that stands alone ends a line of the code, and is kept by the other.
    refine iff_of_false (fun h => ?_) fun h => hlf fun l hl => (h.2 l hl).1
    simp only [not_forall, not_not] at hlf
    obtain ⟨l, hl, hmem⟩ := hlf
    have hne : trimEnd (squeeze l) ≠ [] := List.ne_nil_of_mem (mem_relaxedLine hmem)
    have hline := mem_dropEmpty_of_ne
      (List.mem_map_of_mem (f := fun l => trimEnd (squeeze l)) hl) hne
    rw [← h.2] at hline
    exact lf_notMem_canonLine (mem_dropEmpty hline) (mem_relaxedLine hmem)

/-- What has been made canonical stays as it is. -/
theorem canonBodyRelaxed_idempotent (body : Bytes) :
    canonBodyRelaxed (canonBodyRelaxed body) = canonBodyRelaxed body := by
  have hlf : ∀ l ∈ dropEmpty ((getlines lf body).map canonLine), lf ∉ l :=
    fun l hl => lf_notMem_canonLine (mem_dropEmpty hl)
  have htrim : ∀ l ∈ dropEmpty ((getlines lf body).map canonLine), trimEnd l = l := by
    intro l hl
    obtain ⟨m, -, rfl⟩ := List.mem_map.mp (mem_dropEmpty hl)
    exact trimEnd_trimEnd _
  have hdrop := dropEmpty_dropEmpty ((getlines lf body).map canonLine)
  rw [canonBodyRelaxed_lines body]
  generalize dropEmpty ((getlines lf body).map canonLine) = ms at *
  by_cases hms : ms = []
  · rw [if_pos hms]
    decide
  · have hself : dropEmpty (ms.map trimEnd) = ms := by
      rw [List.map_congr_left htrim, List.map_id', hdrop]
    rw [if_neg hms, canonBodyRelaxed_lines, getlines_crlf hlf, hself, if_neg hms]

end Body

/-! ## Once more -/

section Again

variable {s : Bytes} {c : UInt8}

theorem unfoldLoop_of_hasCrlf : ∀ s : Bytes, hasCrlf s = false → unfoldLoop false s = s
  | [], _ => rfl
  | [_], _ => rfl
  | c :: d :: s, h => by
    rw [hasCrlf, Bool.or_eq_false_iff] at h
    have hpair : ¬ (c = cr && d = lf) = true := by
      intro hpair
      rw [Bool.and_eq_true, decide_eq_true_eq, decide_eq_true_eq] at hpair
      obtain ⟨rfl, rfl⟩ := hpair
      exact Bool.false_ne_true h.1.symm
    rw [unfoldLoop, Bool.false_and, if_neg Bool.false_ne_true, if_neg hpair,
      unfoldLoop_of_hasCrlf (d :: s) h.2]

theorem trim_trim (s : Bytes) : trim (trim s) = trim s := by
  have hstart : (trim s).dropWhile wsp = trim s := by
    rcases spaces_cases' s with hall | ⟨w, c, t, rfl, hc, hw⟩
    · rw [trim, List.dropWhile_eq_nil_iff.mpr hall]
      rfl
    · have hpre : trim (w ++ c :: t) <+: c :: t := by
        rw [trim, dropWhile_append_cons hc hw]
        exact List.rdropWhile_prefix wsp _
      rcases List.prefix_cons_iff.mp hpre with hnil | ⟨t', hcons, -⟩
      · rw [hnil]
        rfl
      · rw [hcons, List.dropWhile_cons_of_neg (by rw [hc]; exact Bool.false_ne_true)]
  rw [trim, hstart, trim, trimEnd_trimEnd]

theorem canonValue_canonValue (value : Bytes) :
    canonValue (canonValue value) = canonValue value := by
  have hplain : hasCrlf (canonValue value) = false := by
    rw [canonValue, hasCrlf_compress, trim, hasCrlf_trimEnd, hasCrlf_dropWhile, hasCrlf_unfoldLoop]
  have htrim : trim (canonValue value) = canonValue value := by
    rw [canonValue, trim_compress, trim_trim]
  rw [canonValue, unfoldLoop_of_hasCrlf _ hplain, htrim, canonValue, compress_compress]

theorem canonName_canonName (name : Bytes) : canonName (canonName name) = canonName name := by
  rw [canonName, canonName, List.map_map]
  exact List.map_congr_left fun c _ => lower_lower c

end Again

/-- A header is canonical where its name has single spaces only and its value is folded well, and a
body where a line is left of it and no line has an LF or white space that is more than single
spaces.  What has been made canonical stays as it is. -/
theorem relaxed_iff (name value body : Bytes) (hbody : body = [] ∨ crlf <:+ body) :
    (canonHeaderRelaxed name value = relaxedHeader name value ↔ HeaderOk name value) ∧
      (canonBodyRelaxed body = relaxedBody body ↔ BodyOk body) ∧
      canonHeaderRelaxed (canonName name) (canonValue value) = canonHeaderRelaxed name value ∧
      canonBodyRelaxed (canonBodyRelaxed body) = canonBodyRelaxed body := by
  refine ⟨canonHeaderRelaxed_iff name value, canonBodyRelaxed_iff hbody, ?_,
    canonBodyRelaxed_idempotent body⟩
  rw [canonHeaderRelaxed, canonName_canonName, canonValue_canonValue, ← canonHeaderRelaxed]

/-- A body of one line. -/
theorem relaxed_line :
    ([0x61, cr, lf] = [] ∨ crlf <:+ [0x61, cr, lf]) ∧
      (canonBodyRelaxed [0x61, cr, lf] = relaxedBody [0x61, cr, lf] ↔ BodyOk [0x61, cr, lf]) :=
  ⟨.inr (List.suffix_append [0x61] crlf),
    (relaxed_iff [0x61] [] [0x61, cr, lf] (.inr (List.suffix_append [0x61] crlf))).2.1⟩

/-- Two spaces inside of a line, an empty body, a name with a space at its end, and a CRLF before
something else. -/
theorem spaces_kept :
    canonBodyRelaxed [0x61, sp, sp, 0x62, cr, lf] = [0x61, sp, sp, 0x62, cr, lf] ∧
      relaxedBody [0x61, sp, sp, 0x62, cr, lf] = [0x61, sp, 0x62, cr, lf] ∧
      canonBodyRelaxed [] = crlf ∧ relaxedBody [] = [] ∧
      canonHeaderRelaxed [0x61, sp] [0x62] ≠ relaxedHeader [0x61, sp] [0x62] ∧
      canonHeaderRelaxed [0x61] [0x62, cr, lf, 0x63] ≠
        relaxedHeader [0x61] [0x62, cr, lf, 0x63] := by
  decide

end Dkim

end Look
