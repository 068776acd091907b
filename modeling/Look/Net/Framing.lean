/-
Whether the end of an accepted request is unambiguous.

A front-end that follows RFC 9112 to the letter and this server must agree on the
framing of the body, or bytes of one request are read as the next one.  The parser
keeps the fields in a map.  It checks that a repeated Content-Length says the same,
but a repeated Transfer-Encoding replaces the earlier one without a check, and a
line that is not a field line is dropped or stored as it is.  These are the only
gaps: an accepted request is unambiguous exactly when it has at most one
Transfer-Encoding line and every header line is a field line with a token as its
name.
-/
import Mathlib.Algebra.Group.Int.Defs
import Mathlib.Algebra.Group.Nat.Defs
import Look.Net.HttpParse

namespace Look

namespace Http

/-! ## What RFC 9112 asks for -/

/-- A byte of a token. -/
def isTchar (b : UInt8) : Bool :=
  isDigit b || (65 ≤ b && b ≤ 90) || (97 ≤ b && b ≤ 122) ||
    b ∈ [33, 35, 36, 37, 38, 39, 42, 43, 45, 46, 94, 95, 96, 124, 126]

def isToken (name : Bytes) : Bool := !name.isEmpty && name.all isTchar

/-- The lines between the request line and the empty line. -/
def headerLines (raw : Bytes) : List Bytes :=
  match breakOn crlfcrlf raw with
  | some (head, _) => (splitCrlf head).tail
  | none => []

/-- `name ":" value`, the name a token. -/
def isFieldLine (line : Bytes) : Bool :=
  match breakOn [colon] line with
  | some (name, _) => isToken name
  | none => false

/-- The value of a line that has this name. -/
def value? (name line : Bytes) : Option Bytes :=
  match breakOn [colon] line with
  | some (key, val) => if lower key = name then some (trim val) else none
  | none => none

/-- The values of all the lines with a name. -/
def values (name : Bytes) (lines : List Bytes) : List Bytes := lines.filterMap (value? name)

/-- Every CR stands before an LF, and every LF behind a CR. -/
def NoBare (head : Bytes) : Prop :=
  (∀ x y, head = x ++ cr :: y → ∃ z, y = lf :: z) ∧
  (∀ x y, head = x ++ lf :: y → ∃ w, x = w ++ [cr])

/-- A text of digits. -/
def IsDecimal (v : Bytes) : Prop := v ≠ [] ∧ v.all isDigit = true

/-- The framing that a strict parser computes: from the list of all the fields, and
only when each header line is a field line. -/
def strictFraming (raw : Bytes) : Option Framing :=
  let lines := headerLines raw
  if !lines.all isFieldLine then none
  else
    match values transferEncoding lines, values contentLength lines with
    | [], [] => some .empty
    | [], v :: vs =>
      if !v.isEmpty && v.all isDigit && vs.all (fun w => w.all isDigit && decimal w == decimal v)
      then some (.length (decimal v)) else none
    | codings, [] =>
      if lower ((ascii ", ").intercalate codings) = ascii "chunked" then some .chunked else none
    | _ :: _, _ :: _ => none

/-- The framing of the request is unambiguous. -/
structure Unambiguous (raw : Bytes) (f : Framing) : Prop where
  lengths : ∃ n, ∀ v ∈ values contentLength (headerLines raw), IsDecimal v ∧ decimal v = n
  notBoth : values contentLength (headerLines raw) = [] ∨
    values transferEncoding (headerLines raw) = []
  codings : values transferEncoding (headerLines raw) ≠ [] →
    lower ((ascii ", ").intercalate (values transferEncoding (headerLines raw))) =
      ascii "chunked"
  noFold : ∀ line ∈ headerLines raw, line.head?.any isBlank = false
  noBare : ∀ head rest, breakOn crlfcrlf raw = some (head, rest) → NoBare head
  noBlank : ∀ line ∈ headerLines raw, ∀ name val, line = name ++ colon :: val →
    colon ∉ name → name.getLast?.any isBlank = false
  fields : ∀ line ∈ headerLines raw, isFieldLine line = true
  boundary : strictFraming raw = some f

/-! ## What the parser checks -/

/-- A line that the loop accepts, and what it does to the map. -/
theorem parseHeaderLine_some {headers headers' : Headers} {line : Bytes}
    (h : parseHeaderLine headers line = some headers') :
    line.head?.any isBlank = false ∧
    (∀ name val, line = name ++ colon :: val → colon ∉ name →
      name.getLast?.any isBlank = false) ∧
    (∀ name, AssocList.lookup name headers' =
      (value? name line).or (AssocList.lookup name headers)) ∧
    (∀ v, AssocList.lookup contentLength headers = some v →
      AssocList.lookup contentLength headers' = some v) := by
  rw [parseHeaderLine] at h
  split at h
  · cases h
  · rename_i hfold
    refine ⟨by simpa using hfold, ?_⟩
    cases hbreak : breakOn [colon] line with
    | none =>
      rw [hbreak] at h
      cases h
      refine ⟨?_, ?_, fun v hv => hv⟩
      · rintro name val rfl hname
        rw [breakOn_single hname] at hbreak
        cases hbreak
      · intro name
        rw [value?, hbreak]
        rfl
    | some r =>
      obtain ⟨key, val⟩ := r
      rw [hbreak] at h
      dsimp only at h
      split at h
      · cases h
      · rename_i hblank
        split at h
        · cases h
        · rename_i hsame
          cases h
          have hvalue : ∀ name, value? name line =
              if lower key = name then some (trim val) else none := by
            intro name
            rw [value?, hbreak]
          have hlookup : ∀ name, AssocList.lookup name
              (AssocList.upsert (lower key) (trim val) headers) =
              (value? name line).or (AssocList.lookup name headers) := by
            intro name
            rw [hvalue]
            by_cases hname : lower key = name
            · subst hname
              rw [if_pos rfl, AssocList.lookup_upsert_self]
              rfl
            · rw [if_neg hname, AssocList.lookup_upsert_of_ne _ _ (Ne.symm hname)]
              rfl
          refine ⟨?_, hlookup, ?_⟩
          · rintro name val' rfl hname
            rw [breakOn_single hname] at hbreak
            cases hbreak
            simpa using hblank
          · intro v hv
            rw [hlookup, hvalue]
            by_cases hname : lower key = contentLength
            · rw [if_pos hname]
              rw [hv] at hsame
              have heq : v = trim val := by
                by_contra hne
                exact hsame ⟨hname, by simpa using hne⟩
              rw [heq]
              rfl
            · rw [if_neg hname]
              exact hv

/-- The lines that the loop accepts, one after the other: the last value of a name
is in the map, and the values of Content-Length are all the same. -/
theorem foldlM_parseHeaderLine {headers headers' : Headers} {lines : List Bytes}
    (h : lines.foldlM parseHeaderLine headers = some headers') :
    (∀ line ∈ lines, line.head?.any isBlank = false) ∧
    (∀ line ∈ lines, ∀ name val, line = name ++ colon :: val → colon ∉ name →
      name.getLast?.any isBlank = false) ∧
    (∀ name, AssocList.lookup name headers' =
      (values name lines).getLast?.or (AssocList.lookup name headers)) ∧
    (∀ v, AssocList.lookup contentLength headers = some v →
      AssocList.lookup contentLength headers' = some v) ∧
    (∀ v ∈ values contentLength lines, AssocList.lookup contentLength headers' = some v) := by
  induction lines generalizing headers with
  | nil =>
    cases h
    exact ⟨List.forall_mem_nil _, List.forall_mem_nil _, fun _ => rfl, fun v hv => hv,
      List.forall_mem_nil _⟩
  | cons line lines ih =>
    rw [List.foldlM_cons] at h
    cases hline : parseHeaderLine headers line with
    | none =>
      rw [hline] at h
      cases h
    | some headers1 =>
      rw [hline] at h
      obtain ⟨hfold, hblank, hlookup, hkeep⟩ := parseHeaderLine_some hline
      obtain ⟨hfolds, hblanks, hlookups, hkeeps, hsame⟩ := ih h
      have hvalues : ∀ name, values name (line :: lines) =
          (value? name line).toList ++ values name lines := by
        intro name
        rw [values, List.filterMap_cons]
        cases value? name line <;> rfl
      refine ⟨?_, ?_, ?_, fun v hv => hkeeps v (hkeep v hv), ?_⟩
      · intro l hl
        rcases List.mem_cons.mp hl with rfl | hl
        · exact hfold
        · exact hfolds l hl
      · intro l hl
        rcases List.mem_cons.mp hl with rfl | hl
        · exact hblank
        · exact hblanks l hl
      · intro name
        rw [hlookups, hlookup, hvalues, List.getLast?_append]
        cases value? name line <;> cases (values name lines).getLast? <;> rfl
      · intro v hv
        rw [hvalues, List.mem_append] at hv
        rcases hv with hv | hv
        · rw [Option.mem_toList] at hv
          refine hkeeps v ?_
          rw [hlookup, hv]
          rfl
        · exact hsame v hv

/-- What the loop over the head has checked, from the byte behind `afterCr` on. -/
theorem strictCrlf_spec {afterCr : Bool} {head : Bytes} (h : strictCrlf afterCr head = true) :
    (afterCr = true → ∃ z, head = lf :: z) ∧
    (∀ x y, head = x ++ cr :: y → ∃ z, y = lf :: z) ∧
    (∀ x y, head = x ++ lf :: y → x = [] ∧ afterCr = true ∨ ∃ w, x = w ++ [cr]) := by
  induction head generalizing afterCr with
  | nil =>
    refine ⟨?_, ?_, ?_⟩
    · rintro rfl
      cases h
    · intro x y hxy
      simp at hxy
    · intro x y hxy
      simp at hxy
  | cons b rest ih =>
    rw [strictCrlf] at h
    cases afterCr with
    | true =>
      rw [if_pos rfl, Bool.and_eq_true, beq_iff_eq] at h
      obtain ⟨rfl, h⟩ := h
      obtain ⟨-, hcr, hlf⟩ := ih h
      refine ⟨fun _ => ⟨rest, rfl⟩, ?_, ?_⟩
      · intro x y hxy
        cases x with
        | nil => cases hxy
        | cons c x =>
          rw [List.cons_append, List.cons.injEq] at hxy
          exact hcr x y hxy.2
      · intro x y hxy
        cases x with
        | nil => exact Or.inl ⟨rfl, rfl⟩
        | cons c x =>
          rw [List.cons_append, List.cons.injEq] at hxy
          rcases hlf x y hxy.2 with ⟨-, h⟩ | ⟨w, rfl⟩
          · cases h
          · exact Or.inr ⟨c :: w, rfl⟩
    | false =>
      rw [if_neg Bool.false_ne_true] at h
      split at h
      · cases h
      · rename_i hb
        obtain ⟨hfirst, hcr, hlf⟩ := ih h
        refine ⟨nofun, ?_, ?_⟩
        · intro x y hxy
          cases x with
          | nil =>
            rw [List.nil_append, List.cons.injEq] at hxy
            obtain ⟨rfl, rfl⟩ := hxy
            exact hfirst (by decide)
          | cons c x =>
            rw [List.cons_append, List.cons.injEq] at hxy
            exact hcr x y hxy.2
        · intro x y hxy
          cases x with
          | nil =>
            rw [List.nil_append, List.cons.injEq] at hxy
            exact absurd hxy.1 hb
          | cons c x =>
            rw [List.cons_append, List.cons.injEq] at hxy
            obtain ⟨rfl, hxy⟩ := hxy
            rcases hlf x y hxy with ⟨rfl, hbcr⟩ | ⟨w, rfl⟩
            · rw [beq_iff_eq] at hbcr
              exact Or.inr ⟨[], by rw [hbcr]; rfl⟩
            · exact Or.inr ⟨b :: w, rfl⟩

theorem strictCrlf_noBare {head : Bytes} (h : strictCrlf false head = true) : NoBare head := by
  obtain ⟨-, hcr, hlf⟩ := strictCrlf_spec h
  refine ⟨hcr, ?_⟩
  intro x y hxy
  rcases hlf x y hxy with ⟨-, h⟩ | hw
  · cases h
  · exact hw

/-- What an accepted head has passed. -/
theorem parseRequest_some {raw : Bytes} {req : Request} (h : parseRequest raw = some req) :
    ∃ head rest, breakOn crlfcrlf raw = some (head, rest) ∧ strictCrlf false head = true ∧
      (headerLines raw).foldlM parseHeaderLine [] = some req.headers := by
  simp only [parseRequest, Option.bind_eq_bind, Option.bind_eq_some_iff] at h
  obtain ⟨⟨reqLine, r1⟩, -, ⟨method, fullPath, version⟩, -, ⟨head, rest⟩, hhead, h⟩ := h
  refine ⟨head, rest, hhead, ?_⟩
  split at h
  · rename_i hstrict
    rw [Option.bind_eq_some_iff] at h
    obtain ⟨headers, hfold, h⟩ := h
    cases h
    refine ⟨hstrict, ?_⟩
    rw [headerLines, hhead]
    exact hfold
  · cases h

/-! ## The framing -/

theorem values_nil_iff {name : Bytes} {lines : List Bytes} {headers : Headers}
    (h : AssocList.lookup name headers = (values name lines).getLast?) :
    values name lines = [] ↔ AssocList.lookup name headers = none := by
  rw [h, List.getLast?_eq_none_iff]

/-- A list of two codings or more is not the one coding `chunked`. -/
theorem length_le_one_of_chunked {vs : List Bytes}
    (h : lower ((ascii ", ").intercalate vs) = ascii "chunked") : vs.length ≤ 1 := by
  match vs with
  | [] => exact Nat.zero_le 1
  | [v] => exact Nat.le_refl 1
  | v :: w :: vs =>
    have hcomma : (44 : UInt8) ∈ lower ((ascii ", ").intercalate (v :: w :: vs)) := by
      simp only [List.intercalate, List.intersperse_cons_cons, List.flatten_cons, lower,
        List.map_append, List.mem_append]
      exact Or.inr (Or.inl (by decide))
    rw [h] at hcomma
    exact absurd hcomma (by decide)

section Accepted

variable {maxBody : Nat} {raw : Bytes} {f : Framing}

/-- The framing of an accepted request, from the values of its two framing
fields. -/
theorem Accepts.cases (h : Accepts maxBody raw f) :
    (values transferEncoding (headerLines raw) = [] ∧
      values contentLength (headerLines raw) = [] ∧ f = .empty) ∨
    (∃ te, values contentLength (headerLines raw) = [] ∧
      (values transferEncoding (headerLines raw)).getLast? = some te ∧
      lower te = ascii "chunked" ∧ f = .chunked) ∨
    (∃ cl, values transferEncoding (headerLines raw) = [] ∧
      values contentLength (headerLines raw) ≠ [] ∧
      (∀ v ∈ values contentLength (headerLines raw), v = cl) ∧
      IsDecimal cl ∧ f = .length (decimal cl)) := by
  obtain ⟨req, hparse, hframing⟩ := h
  obtain ⟨head, rest, -, -, hfold⟩ := parseRequest_some hparse
  obtain ⟨-, -, hlookup, -, hsame⟩ := foldlM_parseHeaderLine hfold
  have hte : AssocList.lookup transferEncoding req.headers =
      (values transferEncoding (headerLines raw)).getLast? := by
    rw [hlookup]
    exact Option.or_none
  have hcl : AssocList.lookup contentLength req.headers =
      (values contentLength (headerLines raw)).getLast? := by
    rw [hlookup]
    exact Option.or_none
  rw [framing] at hframing
  split at hframing
  · cases hframing
  · rename_i te hte' hcl'
    split at hframing
    · rename_i hchunked
      cases hframing
      exact Or.inr (Or.inl ⟨te, (values_nil_iff hcl).mpr hcl', by rw [← hte, hte'], hchunked, rfl⟩)
    · cases hframing
  · rename_i cl hte' hcl'
    split at hframing
    · cases hframing
    · rename_i hdigits
      split at hframing
      · cases hframing
      · cases hframing
        refine Or.inr (Or.inr ⟨cl, (values_nil_iff hte).mpr hte', ?_, ?_, ?_, rfl⟩)
        · intro hnil
          rw [(values_nil_iff hcl).mp hnil] at hcl'
          cases hcl'
        · intro v hv
          have := hsame v hv
          rw [hcl'] at this
          exact (Option.some.inj this).symm
        · simp only [Bool.or_eq_true, not_or, Bool.not_eq_true, Bool.not_eq_false'] at hdigits
          exact ⟨by simpa using hdigits.1.1, hdigits.2⟩
  · rename_i hte' hcl'
    cases hframing
    exact Or.inl ⟨(values_nil_iff hte).mpr hte', (values_nil_iff hcl).mpr hcl', rfl⟩

/-- A strict parser finds the same framing when the lines are field lines and
Transfer-Encoding is not repeated. -/
theorem Accepts.strictFraming_eq (h : Accepts maxBody raw f)
    (hte : (values transferEncoding (headerLines raw)).length ≤ 1)
    (hfields : ∀ line ∈ headerLines raw, isFieldLine line = true) :
    strictFraming raw = some f := by
  have hall : (headerLines raw).all isFieldLine = true := List.all_eq_true.mpr hfields
  rw [strictFraming, hall, if_neg (by decide)]
  rcases h.cases with ⟨hte', hcl', rfl⟩ | ⟨te, hcl', hlast, hchunked, rfl⟩ |
    ⟨cl, hte', hcl', hsame, hdec, rfl⟩
  · rw [hte', hcl']
  · match hv : values transferEncoding (headerLines raw) with
    | [] =>
      rw [hv] at hlast
      cases hlast
    | [v] =>
      rw [hv] at hlast
      cases hlast
      have hone : (ascii ", ").intercalate [v] = v := by simp [List.intercalate]
      rw [hcl']
      dsimp only
      rw [hone]
      exact if_pos hchunked
    | v :: w :: vs =>
      rw [hv] at hte
      simp at hte
  · rw [hte']
    match hv : values contentLength (headerLines raw) with
    | [] => exact absurd hv hcl'
    | v :: vs =>
      rw [hv] at hsame
      have hvcl : v = cl := hsame v List.mem_cons_self
      subst hvcl
      have hrest : vs.all (fun w => w.all isDigit && decimal w == decimal v) = true := by
        rw [List.all_eq_true]
        intro w hw
        rw [hsame w (List.mem_cons_of_mem _ hw), hdec.2]
        simp
      have hne : v.isEmpty = false := by simpa using hdec.1
      dsimp only
      rw [hne, hdec.2, hrest]
      rfl

/-- An accepted request is unambiguous exactly when Transfer-Encoding is not
repeated and every header line is a field line with a token as its name. -/
theorem accepted_unambiguous_iff (h : Accepts maxBody raw f) :
    Unambiguous raw f ↔ (values transferEncoding (headerLines raw)).length ≤ 1 ∧
      ∀ line ∈ headerLines raw, isFieldLine line = true := by
  constructor
  · intro hu
    refine ⟨?_, hu.fields⟩
    by_cases hnil : values transferEncoding (headerLines raw) = []
    · rw [hnil]
      exact Nat.zero_le 1
    · exact length_le_one_of_chunked (hu.codings hnil)
  · rintro ⟨hte, hfields⟩
    have hcases := h.cases
    have hboundary := h.strictFraming_eq hte hfields
    obtain ⟨req, hparse, -⟩ := h
    obtain ⟨head, rest, hhead, hstrict, hfold⟩ := parseRequest_some hparse
    obtain ⟨hnofold, hnoblank, -, -, -⟩ := foldlM_parseHeaderLine hfold
    refine ⟨?_, ?_, ?_, hnofold, ?_, hnoblank, hfields, hboundary⟩
    · rcases hcases with ⟨-, hcl, -⟩ | ⟨te, hcl, -⟩ | ⟨cl, -, -, hsame, hdec, -⟩
      · exact ⟨0, by rw [hcl]; exact List.forall_mem_nil _⟩
      · exact ⟨0, by rw [hcl]; exact List.forall_mem_nil _⟩
      · refine ⟨decimal cl, fun v hv => ?_⟩
        rw [hsame v hv]
        exact ⟨hdec, rfl⟩
    · rcases hcases with ⟨-, hcl, -⟩ | ⟨te, hcl, -⟩ | ⟨cl, hte, -⟩
      · exact Or.inl hcl
      · exact Or.inl hcl
      · exact Or.inr hte
    · intro hne
      rcases hcases with ⟨hnil, -⟩ | ⟨te, -, hlast, hchunked, -⟩ | ⟨cl, hnil, -⟩
      · exact absurd hnil hne
      · rcases hv : values transferEncoding (headerLines raw) with _ | ⟨v, _ | ⟨w, vs⟩⟩
        · exact absurd hv hne
        · rw [hv] at hlast
          cases hlast
          simpa [List.intercalate] using hchunked
        · rw [hv] at hte
          simp at hte
      · exact absurd hnil hne
    · intro head' rest' hhead'
      rw [hhead] at hhead'
      cases hhead'
      exact strictCrlf_noBare hstrict

end Accepted

/-- The head is accepted, as a check that runs. -/
def acceptsBool (maxBody : Nat) (raw : Bytes) (f : Framing) : Bool :=
  match parseRequest raw with
  | some req =>
    match framing maxBody req.headers with
    | .ok f' => f' = f
    | .error _ => false
  | none => false

theorem accepts_of_acceptsBool {maxBody : Nat} {raw : Bytes} {f : Framing}
    (h : acceptsBool maxBody raw f = true) : Accepts maxBody raw f := by
  rw [acceptsBool] at h
  split at h
  · rename_i req hparse
    split at h
    · rename_i f' hframing
      rw [decide_eq_true_eq] at h
      subst h
      exact ⟨req, hparse, hframing⟩
    · cases h
  · cases h

/-- A POST with one Transfer-Encoding. -/
def rawChunked : Bytes := ascii "POST / HTTP/1.1\r\nHost: a\r\nTransfer-Encoding: chunked\r\n\r\n"

theorem accepted_unambiguous_chunked : Unambiguous rawChunked .chunked :=
  (accepted_unambiguous_iff (accepts_of_acceptsBool
    (show acceptsBool 10 rawChunked .chunked = true by decide +kernel))).mpr (by decide +kernel)

/-- Two Transfer-Encoding lines: the server takes the second, and the two together
say `gzip, chunked`. -/
def rawTwice : Bytes :=
  ascii "POST / HTTP/1.1\r\nTransfer-Encoding: gzip\r\nTransfer-Encoding: chunked\r\n\r\n"

/-- A header line without a colon. -/
def rawNoColon : Bytes := ascii "GET / HTTP/1.1\r\nContent-Length 5\r\n\r\n"

theorem accepted_ambiguous :
    (Accepts 10 rawTwice .chunked ∧ ¬ Unambiguous rawTwice .chunked) ∧
    (Accepts 10 rawNoColon .empty ∧ ¬ Unambiguous rawNoColon .empty) := by
  refine ⟨⟨accepts_of_acceptsBool (by decide +kernel), ?_⟩,
    ⟨accepts_of_acceptsBool (by decide +kernel), ?_⟩⟩
  · intro h
    exact absurd (h.codings (by decide +kernel)) (by decide +kernel)
  · intro h
    exact absurd h.fields (by decide +kernel)

end Http

end Look
