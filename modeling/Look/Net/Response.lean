/-
`HttpResponse::build` and `WebContext::build_headers`, and how a strict reader takes the text apart.

Names, values and cookies are cut at their first CR or LF, so a reader finds one line for each of
them, whatever they are.  The builders do not look at the names.  A reader that follows the
grammar, and wants one Content-Length and one Connection line, accepts the text exactly when the
names are tokens other than those that the builder writes itself.
-/
import Look.Decimal
import Look.Net.Framing
import Mathlib.Data.List.TakeWhile

namespace Look

namespace Response

open Http

/-! ## A strict reader -/

/-- The lines up to an empty one, and what is behind it.  A CR and an LF are nothing but the end of
a line; `line` is what has been read of the first one. -/
def readLines : Bytes → Bytes → Option (List Bytes × Bytes)
  | line, b :: b' :: rest =>
    if b = cr then
      if b' ≠ lf then none
      else if line = [] then some ([], rest)
      else (readLines [] rest).map fun (lines, body) => (line :: lines, body)
    else if b = lf then none
    else readLines (line ++ [b]) (b' :: rest)
  | _, _ => none

/-- A byte of a field value: no control character but the tab. -/
def isFieldByte (b : UInt8) : Bool := b == tab || (32 ≤ b && b != 127)

/-- `name ":" value`. -/
def readField (line : Bytes) : Option (Bytes × Bytes) :=
  (breakOn [colon] line).bind fun (name, value) =>
    if isToken name ∧ value.all isFieldByte then some (name, trim value) else none

def readFields : List Bytes → Option (List (Bytes × Bytes))
  | [] => some []
  | line :: lines => (readField line).bind fun f => (readFields lines).map (f :: ·)

/-- Header lines, and what is behind them. -/
def readHeader (s : Bytes) : Option (List (Bytes × Bytes) × Bytes) :=
  (readLines [] s).bind fun (lines, body) => (readFields lines).map (·, body)

/-- A start line, header lines, and what is behind them. -/
def readMessage (s : Bytes) : Option (Bytes × List (Bytes × Bytes) × Bytes) :=
  (readLines [] s).bind fun (lines, body) =>
    match lines with
    | [] => none
    | start :: lines => (readFields lines).map (start, ·, body)

/-- The values of the fields with a name. -/
def valuesOf (name : Bytes) (fields : List (Bytes × Bytes)) : List Bytes :=
  (fields.filter fun f => lower f.1 = name).map Prod.snd

/-! ## The builders -/

/-- `strip_crlf`. -/
def stripCrlf (s : Bytes) : Bytes := s.takeWhile fun c => c ≠ cr ∧ c ≠ lf

/-- `HttpResponse`; `headers` is a map. -/
structure HttpResponse where
  statusCode : Int
  statusText : Bytes
  headers : List (Bytes × Bytes)
  setCookies : List Bytes
  body : Bytes
  keepAlive : Bool
  distinct : (headers.map Prod.fst).Nodup

/-- `HttpResponse::build`. -/
def HttpResponse.build (r : HttpResponse) : Bytes :=
  ascii "HTTP/1.1 " ++ intText r.statusCode ++ ascii " " ++ r.statusText ++ crlf ++
    (r.headers.flatMap fun (k, v) => stripCrlf k ++ ascii ": " ++ stripCrlf v ++ crlf) ++
    (r.setCookies.flatMap fun c => ascii "Set-Cookie: " ++ stripCrlf c ++ crlf) ++
    (ascii "Content-Length: " ++ intText r.body.length ++ crlf) ++
    (ascii "Connection: " ++ (if r.keepAlive then ascii "keep-alive" else ascii "close") ++ crlf) ++
    crlf ++ r.body

/-- What `build_headers` reads of a `WebContext`; `headersOut` is a map. -/
structure WebContext where
  statusCode : Int
  statusText : Bytes
  headersOut : List (Bytes × Bytes)
  setCookiesOut : List Bytes
  distinct : (headersOut.map Prod.fst).Nodup

/-- `has_ct`. -/
def WebContext.hasCt (w : WebContext) : Bool :=
  w.headersOut.any fun (k, _) => k = ascii "Content-Type"

/-- `WebContext::build_headers`. -/
def WebContext.buildHeaders (w : WebContext) : Bytes :=
  ascii "Status: " ++ intText w.statusCode ++ ascii " " ++ w.statusText ++ crlf ++
    (w.headersOut.flatMap fun (k, v) => stripCrlf k ++ ascii ": " ++ stripCrlf v ++ crlf) ++
    (w.setCookiesOut.flatMap fun c => ascii "Set-Cookie: " ++ stripCrlf c ++ crlf) ++
    (if w.hasCt then [] else ascii "Content-Type: text/html; charset=utf-8" ++ crlf) ++ crlf

/-! ## What is read -/

/-- An entry of the header section, and the line for it. -/
def entryLine (e : Bytes × Bytes) : Bytes := e.1 ++ ascii ": " ++ e.2

/-- What a reader makes of the line. -/
def entryField (e : Bytes × Bytes) : Bytes × Bytes := (e.1, trim e.2)

def entryText (e : Bytes × Bytes) : Bytes := entryLine e ++ crlf

def Plain (s : Bytes) : Prop := cr ∉ s ∧ lf ∉ s

theorem plain_nil : Plain [] := ⟨List.not_mem_nil, List.not_mem_nil⟩

theorem plain_append {s t : Bytes} (hs : Plain s) (ht : Plain t) : Plain (s ++ t) :=
  ⟨fun h => (List.mem_append.mp h).elim hs.1 ht.1, fun h => (List.mem_append.mp h).elim hs.2 ht.2⟩

theorem plain_stripCrlf (s : Bytes) : Plain (stripCrlf s) := by
  constructor
  · intro h
    simpa using List.mem_takeWhile_imp h
  · intro h
    simpa using List.mem_takeWhile_imp h

theorem plain_entryLine {e : Bytes × Bytes} (h : Plain e.1 ∧ Plain e.2) : Plain (entryLine e) :=
  plain_append (plain_append h.1 ⟨by decide, by decide⟩) h.2

theorem entryLine_ne_nil (e : Bytes × Bytes) : entryLine e ≠ [] := by
  intro h
  rw [entryLine, List.append_eq_nil_iff, List.append_eq_nil_iff] at h
  exact absurd h.1.2 (by decide)

theorem readLines_line {l : Bytes} (h : Plain l) (line : Bytes) (hne : line ++ l ≠ [])
    (rest : Bytes) :
    readLines line (l ++ crlf ++ rest) =
      (readLines [] rest).map fun (lines, body) => ((line ++ l) :: lines, body) := by
  induction l generalizing line with
  | nil =>
    rw [List.append_nil] at hne ⊢
    change readLines line (cr :: lf :: rest) = _
    rw [readLines, if_pos rfl, if_neg (fun h => h rfl), if_neg hne]
  | cons b l ih =>
    have hb : b ≠ cr ∧ b ≠ lf := ⟨fun hb => h.1 (by simp [hb]), fun hb => h.2 (by simp [hb])⟩
    have hl : Plain l :=
      ⟨fun hx => h.1 (List.mem_cons_of_mem _ hx), fun hx => h.2 (List.mem_cons_of_mem _ hx)⟩
    obtain ⟨c, t, ht⟩ : ∃ c t, l ++ crlf ++ rest = c :: t := by
      cases l with
      | nil => exact ⟨13, _, rfl⟩
      | cons c l => exact ⟨c, _, rfl⟩
    have hstep : readLines line (b :: c :: t) = readLines (line ++ [b]) (c :: t) := by
      rw [readLines, if_neg hb.1, if_neg hb.2]
    rw [List.cons_append, List.cons_append, ht, hstep, ← ht, ih hl (line ++ [b]) (by simp)]
    simp

theorem readLines_end (body : Bytes) : readLines [] (crlf ++ body) = some ([], body) := by
  change readLines [] (cr :: lf :: body) = _
  rw [readLines, if_pos rfl, if_neg (fun h => h rfl), if_pos rfl]

/-- Every entry without line ends is one line. -/
theorem readLines_entries {entries : List (Bytes × Bytes)}
    (h : ∀ e ∈ entries, Plain e.1 ∧ Plain e.2) (body : Bytes) :
    readLines [] (entries.flatMap entryText ++ (crlf ++ body)) =
      some (entries.map entryLine, body) := by
  induction entries with
  | nil => exact readLines_end body
  | cons e entries ih =>
    rw [List.forall_mem_cons] at h
    rw [List.flatMap_cons, entryText, List.append_assoc,
      readLines_line (plain_entryLine h.1) [] (entryLine_ne_nil e), ih h.2]
    rfl

/-- The lines that are read have no line ends. -/
theorem readLines_plain {line s : Bytes} {lines : List Bytes} {body : Bytes} (hline : Plain line)
    (h : readLines line s = some (lines, body)) : ∀ l ∈ lines, Plain l := by
  fun_induction readLines line s generalizing lines with
  | case1 => cases h
  | case2 =>
    cases h
    exact List.forall_mem_nil _
  | case3 line b rest _ hne ih =>
    obtain ⟨⟨lines, body⟩, hrest, heq⟩ := Option.map_eq_some_iff.mp h
    cases heq
    exact List.forall_mem_cons.mpr ⟨hline, ih plain_nil hrest⟩
  | case4 => cases h
  | case5 line b b' rest hcr hlf ih =>
    have hb : Plain [b] :=
      ⟨fun hmem => hcr (List.mem_singleton.mp hmem).symm,
        fun hmem => hlf (List.mem_singleton.mp hmem).symm⟩
    exact ih (plain_append hline hb) h
  | case6 => cases h

theorem all_dropWhile {p : UInt8 → Bool} (hblank : ∀ b, isBlank b = true → p b = true) (s : Bytes) :
    (s.dropWhile isBlank).all p = s.all p := by
  have htake : (s.takeWhile isBlank).all p = true :=
    List.all_eq_true.mpr fun b hb => hblank b (List.mem_takeWhile_imp hb)
  calc (s.dropWhile isBlank).all p
      = ((s.takeWhile isBlank).all p && (s.dropWhile isBlank).all p) := by
        rw [htake, Bool.true_and]
    _ = s.all p := by rw [← List.all_append, List.takeWhile_append_dropWhile]

theorem all_trim {p : UInt8 → Bool} (hblank : ∀ b, isBlank b = true → p b = true) (s : Bytes) :
    (trim s).all p = s.all p := by
  rw [trim, List.all_reverse, all_dropWhile hblank, List.all_reverse, all_dropWhile hblank]

theorem fieldByte_of_blank (b : UInt8) (h : isBlank b = true) : isFieldByte b = true := by
  have hval : b = sp ∨ b = tab := by simpa [isBlank] using h
  rcases hval with rfl | rfl
  · rfl
  · rfl

/-- A field that is read has a token as its name, and no control character in its value. -/
theorem readField_some {line name value : Bytes} (h : readField line = some (name, value)) :
    isToken name = true ∧ value.all isFieldByte = true := by
  obtain ⟨⟨n, v⟩, -, hif⟩ := Option.bind_eq_some_iff.mp h
  dsimp only at hif
  split at hif
  · rename_i hok
    cases hif
    exact ⟨hok.1, by rw [all_trim fieldByte_of_blank]; exact hok.2⟩
  · cases hif

/-- An entry that is a field as the grammar wants it. -/
def Good (e : Bytes × Bytes) : Prop := isToken e.1 = true ∧ e.2.all isFieldByte = true

theorem good_entryField {e : Bytes × Bytes} : Good (entryField e) ↔ Good e := by
  rw [Good, Good, entryField, all_trim fieldByte_of_blank]

theorem plain_of_all {p : UInt8 → Bool} {s : Bytes} (h : s.all p = true) (hcr : p cr = false)
    (hlf : p lf = false) : Plain s := by
  rw [List.all_eq_true] at h
  constructor
  · intro hmem
    rw [h _ hmem] at hcr
    cases hcr
  · intro hmem
    rw [h _ hmem] at hlf
    cases hlf

theorem tchar_of_token {name : Bytes} (h : isToken name = true) : name.all isTchar = true := by
  rw [isToken, Bool.and_eq_true] at h
  exact h.2

theorem Good.plain {e : Bytes × Bytes} (h : Good e) : Plain e.1 ∧ Plain e.2 :=
  ⟨plain_of_all (tchar_of_token h.1) (by decide) (by decide),
    plain_of_all h.2 (by decide) (by decide)⟩

theorem trim_sp (s : Bytes) : trim (sp :: s) = trim s := by
  rw [trim, List.dropWhile_cons, if_pos (show isBlank sp = true by decide), trim]

theorem readField_entryLine {e : Bytes × Bytes} (h : Good e) :
    readField (entryLine e) = some (entryField e) := by
  have hcolon : colon ∉ e.1 := by
    intro hmem
    have hc := List.all_eq_true.mp (tchar_of_token h.1) _ hmem
    exact absurd hc (by decide)
  have hline : entryLine e = e.1 ++ colon :: (sp :: e.2) := by
    rw [entryLine, List.append_assoc]
    rfl
  have hall : (sp :: e.2).all isFieldByte = true := by
    rw [List.all_cons, h.2]
    rfl
  rw [readField, hline, breakOn_single hcolon]
  change (if _ then some (e.1, trim (sp :: e.2)) else none) = _
  rw [if_pos ⟨h.1, hall⟩, trim_sp]
  rfl

theorem readFields_some {lines : List Bytes} {fields : List (Bytes × Bytes)}
    (h : readFields lines = some fields) : ∀ f ∈ fields, Good f := by
  induction lines generalizing fields with
  | nil =>
    cases h
    nofun
  | cons line lines ih =>
    obtain ⟨f, hf, hrest⟩ := Option.bind_eq_some_iff.mp h
    obtain ⟨fs, hfs, rfl⟩ := Option.map_eq_some_iff.mp hrest
    exact List.forall_mem_cons.mpr ⟨readField_some hf, ih hfs⟩

theorem readFields_entries {entries : List (Bytes × Bytes)} (h : ∀ e ∈ entries, Good e) :
    readFields (entries.map entryLine) = some (entries.map entryField) := by
  induction entries with
  | nil => rfl
  | cons e entries ih =>
    rw [List.forall_mem_cons] at h
    rw [List.map_cons, readFields, readField_entryLine h.1, ih h.2]
    rfl

theorem good_of_fields {entries : List (Bytes × Bytes)}
    (h : ∀ f ∈ entries.map entryField, Good f) : ∀ e ∈ entries, Good e :=
  fun _ he => good_entryField.mp (h _ (List.mem_map_of_mem he))

/-- A header section is read as its entries exactly when all of them are fields. -/
theorem readHeader_iff (entries : List (Bytes × Bytes)) (body : Bytes) :
    readHeader (entries.flatMap entryText ++ (crlf ++ body)) =
      some (entries.map entryField, body) ↔ ∀ e ∈ entries, Good e := by
  constructor
  · intro h
    obtain ⟨⟨lines, behind⟩, -, hfields⟩ := Option.bind_eq_some_iff.mp h
    obtain ⟨fields, hread, heq⟩ := Option.map_eq_some_iff.mp hfields
    cases heq
    exact good_of_fields (readFields_some hread)
  · intro h
    rw [readHeader, readLines_entries fun e he => (h e he).plain]
    change (readFields (entries.map entryLine)).map _ = _
    rw [readFields_entries h]
    rfl

/-- With a start line before it, that one must not have line ends either. -/
theorem readMessage_iff {start : Bytes} (hne : start ≠ []) (entries : List (Bytes × Bytes))
    (body : Bytes) :
    readMessage (start ++ crlf ++ (entries.flatMap entryText ++ (crlf ++ body))) =
      some (start, entries.map entryField, body) ↔ Plain start ∧ ∀ e ∈ entries, Good e := by
  constructor
  · intro h
    obtain ⟨⟨lines, behind⟩, hlines, hmatch⟩ := Option.bind_eq_some_iff.mp h
    cases lines with
    | nil => cases hmatch
    | cons first lines =>
      obtain ⟨fields, hread, heq⟩ := Option.map_eq_some_iff.mp hmatch
      cases heq
      exact ⟨readLines_plain plain_nil hlines _ List.mem_cons_self,
        good_of_fields (readFields_some hread)⟩
  · intro h
    rw [readMessage, readLines_line h.1 [] hne, readLines_entries fun e he => (h.2 e he).plain]
    change (readFields (entries.map entryLine)).map _ = _
    rw [readFields_entries h.2]
    rfl

/-! ## Which fields there are -/

theorem valuesOf_append (name : Bytes) (fs gs : List (Bytes × Bytes)) :
    valuesOf name (fs ++ gs) = valuesOf name fs ++ valuesOf name gs := by
  rw [valuesOf, List.filter_append, List.map_append]
  rfl

theorem valuesOf_cons (name : Bytes) (f : Bytes × Bytes) (fs : List (Bytes × Bytes)) :
    valuesOf name (f :: fs) = if lower f.1 = name then f.2 :: valuesOf name fs
      else valuesOf name fs := by
  rw [valuesOf, List.filter_cons]
  by_cases h : lower f.1 = name
  · rw [if_pos (decide_eq_true h), if_pos h]
    rfl
  · rw [if_neg (by simpa using h), if_neg h]
    rfl

theorem valuesOf_eq_nil {name : Bytes} {fs : List (Bytes × Bytes)} :
    valuesOf name fs = [] ↔ ∀ f ∈ fs, lower f.1 ≠ name := by
  rw [valuesOf, List.map_eq_nil_iff, List.filter_eq_nil_iff]
  simp

def stripEntry (e : Bytes × Bytes) : Bytes × Bytes := (stripCrlf e.1, stripCrlf e.2)

def cookieEntry (c : Bytes) : Bytes × Bytes := (ascii "Set-Cookie", stripCrlf c)

def connection : Bytes := ascii "connection"
def contentType : Bytes := ascii "content-type"

/-- The names that the headers of an application have, in lower case, as they are written. -/
def names (headers : List (Bytes × Bytes)) : List Bytes :=
  headers.map fun e => lower (stripCrlf e.1)

theorem valuesOf_headers {name : Bytes} {headers : List (Bytes × Bytes)} :
    valuesOf name ((headers.map stripEntry).map entryField) = [] ↔ name ∉ names headers := by
  rw [valuesOf_eq_nil, names, List.map_map]
  constructor
  · intro h hmem
    obtain ⟨e, he, heq⟩ := List.mem_map.mp hmem
    exact h _ (List.mem_map_of_mem he) heq
  · intro h f hf heq
    obtain ⟨e, he, rfl⟩ := List.mem_map.mp hf
    exact h (List.mem_map.mpr ⟨e, he, heq⟩)

theorem valuesOf_cookies {name : Bytes} (h : ascii "set-cookie" ≠ name) (cookies : List Bytes) :
    valuesOf name ((cookies.map cookieEntry).map entryField) = [] := by
  refine valuesOf_eq_nil.mpr fun f hf => ?_
  rw [List.map_map] at hf
  obtain ⟨c, _, rfl⟩ := List.mem_map.mp hf
  exact h

theorem flatMap_headers (headers : List (Bytes × Bytes)) :
    (headers.flatMap fun (k, v) => stripCrlf k ++ ascii ": " ++ stripCrlf v ++ crlf) =
      (headers.map stripEntry).flatMap entryText := by
  rw [List.flatMap_map]
  rfl

theorem flatMap_cookies (cookies : List Bytes) :
    (cookies.flatMap fun c => ascii "Set-Cookie: " ++ stripCrlf c ++ crlf) =
      (cookies.map cookieEntry).flatMap entryText := by
  rw [List.flatMap_map]
  rfl

theorem plain_stripEntry {headers : List (Bytes × Bytes)} :
    ∀ e ∈ headers.map stripEntry, Plain e.1 ∧ Plain e.2 := by
  intro e he
  obtain ⟨h, _, rfl⟩ := List.mem_map.mp he
  exact ⟨plain_stripCrlf h.1, plain_stripCrlf h.2⟩

theorem setCookie_token : isToken (ascii "Set-Cookie") = true := by decide

theorem setCookie_plain : Plain (ascii "Set-Cookie") :=
  plain_of_all (tchar_of_token setCookie_token) (by decide) (by decide)

theorem plain_cookieEntry {cookies : List Bytes} :
    ∀ e ∈ cookies.map cookieEntry, Plain e.1 ∧ Plain e.2 := by
  intro e he
  obtain ⟨c, _, rfl⟩ := List.mem_map.mp he
  exact ⟨setCookie_plain, plain_stripCrlf c⟩

/-- The headers and cookies are such that every line is a field. -/
structure Grammatical (headers : List (Bytes × Bytes)) (cookies : List Bytes) : Prop where
  names : ∀ e ∈ headers, isToken (stripCrlf e.1) = true
  values : ∀ e ∈ headers, (stripCrlf e.2).all isFieldByte = true
  cookies : ∀ c ∈ cookies, (stripCrlf c).all isFieldByte = true

theorem grammatical_iff {headers : List (Bytes × Bytes)} {cookies : List Bytes} :
    (∀ e ∈ headers.map stripEntry ++ cookies.map cookieEntry, Good e) ↔
      Grammatical headers cookies := by
  rw [List.forall_mem_append, List.forall_mem_map, List.forall_mem_map]
  constructor
  · rintro ⟨hheaders, hcookies⟩
    exact ⟨fun e he => (hheaders e he).1, fun e he => (hheaders e he).2,
      fun c hc => (hcookies c hc).2⟩
  · intro h
    exact ⟨fun e he => ⟨h.names e he, h.values e he⟩, fun c hc => ⟨setCookie_token, h.cookies c hc⟩⟩

/-! ## Numbers -/

theorem byte_intText {n : Int} {b : UInt8} (h : b ∈ intText n) : 45 ≤ b ∧ b ≤ 57 := by
  rw [intText_eq, numeral] at h
  obtain ⟨c, hc, rfl⟩ := List.mem_map.mp h
  have hval : 45 ≤ c.toNat ∧ c.toNat ≤ 57 := by
    rcases List.mem_append.mp hc with hc | hc
    · split at hc
      · rw [List.mem_singleton.mp hc]
        decide
      · cases hc
    · have hdigit := isDigitChar_iff.mp (isDigitChar_of_mem_toDigits hc)
      omega
  rw [UInt8.le_iff_toNat_le, UInt8.le_iff_toNat_le, UInt8.toNat_ofNat_of_lt' (by
    change c.toNat < 256
    omega)]
  exact hval

theorem plain_digit :
    ∀ b : UInt8, 45 ≤ b ∧ b ≤ 57 → isFieldByte b = true ∧ isBlank b = false :=
  forall_byte (by decide +kernel)

theorem fieldByte_intText (n : Int) : (intText n).all isFieldByte = true :=
  List.all_eq_true.mpr fun b hb => (plain_digit b (byte_intText hb)).1

theorem trim_intText (n : Int) : trim (intText n) = intText n :=
  trim_of_notBlank fun b hb => (plain_digit b (byte_intText hb)).2

/-! ## The response of the HTTP server -/

def HttpResponse.startLine (r : HttpResponse) : Bytes :=
  ascii "HTTP/1.1 " ++ intText r.statusCode ++ ascii " " ++ r.statusText

/-- What stands behind `Connection: `. -/
def HttpResponse.mode (r : HttpResponse) : Bytes :=
  if r.keepAlive then ascii "keep-alive" else ascii "close"

/-- The builder's own fields. -/
def HttpResponse.ownFields (r : HttpResponse) : List (Bytes × Bytes) :=
  [(ascii "Content-Length", intText r.body.length), (ascii "Connection", r.mode)]

/-- The entries of the header section. -/
def HttpResponse.entries (r : HttpResponse) : List (Bytes × Bytes) :=
  r.headers.map stripEntry ++ r.setCookies.map cookieEntry ++ r.ownFields

theorem HttpResponse.build_eq (r : HttpResponse) :
    r.build = r.startLine ++ crlf ++ (r.entries.flatMap entryText ++ (crlf ++ r.body)) := by
  rw [HttpResponse.build, flatMap_headers, flatMap_cookies, HttpResponse.entries,
    List.flatMap_append, List.flatMap_append]
  simp [HttpResponse.startLine, HttpResponse.ownFields, HttpResponse.mode, entryText, entryLine,
    ascii]

/-- A strict reader finds one field for each header and each cookie, one Content-Length with the
size of the body, one Connection and no Transfer-Encoding, and behind them the body. -/
def HttpResponse.Reads (r : HttpResponse) : Prop :=
  readMessage r.build = some (r.startLine, r.entries.map entryField, r.body) ∧
    valuesOf contentLength (r.entries.map entryField) = [intText r.body.length] ∧
    valuesOf connection (r.entries.map entryField) = [r.mode] ∧
    valuesOf transferEncoding (r.entries.map entryField) = []

theorem contentLength_token : isToken (ascii "Content-Length") = true := by decide

theorem HttpResponse.good_ownFields (r : HttpResponse) : ∀ e ∈ r.ownFields, Good e := by
  intro e he
  rcases List.mem_cons.mp he with rfl | he
  · exact ⟨contentLength_token, fieldByte_intText _⟩
  · rw [List.mem_singleton.mp he, HttpResponse.mode]
    split
    · exact ⟨by decide, by decide⟩
    · exact ⟨by decide, by decide⟩

theorem HttpResponse.good_iff (r : HttpResponse) :
    (∀ e ∈ r.entries, Good e) ↔ Grammatical r.headers r.setCookies := by
  rw [HttpResponse.entries, List.forall_mem_append, grammatical_iff,
    and_iff_left r.good_ownFields]

theorem lower_contentLength : lower (ascii "Content-Length") = contentLength := by decide

theorem lower_connection : lower (ascii "Connection") = connection := by decide

theorem HttpResponse.valuesOf_ownFields (r : HttpResponse) (name : Bytes) :
    valuesOf name r.ownFields =
      if contentLength = name then [intText r.body.length]
      else if connection = name then [r.mode] else [] := by
  have hne : contentLength ≠ connection := by decide
  rw [HttpResponse.ownFields, valuesOf_cons, valuesOf_cons, lower_contentLength, lower_connection]
  by_cases hl : contentLength = name
  · rw [if_pos hl, if_neg (hl ▸ hne.symm), if_pos hl]
    rfl
  · rw [if_neg hl, if_neg hl]
    rfl

theorem HttpResponse.fields_eq (r : HttpResponse) :
    r.entries.map entryField = (r.headers.map stripEntry).map entryField ++
      (r.setCookies.map cookieEntry).map entryField ++ r.ownFields := by
  have hmode : trim r.mode = r.mode := by
    rw [HttpResponse.mode]
    split
    · decide
    · decide
  rw [HttpResponse.entries, List.map_append, List.map_append]
  simp [HttpResponse.ownFields, entryField, trim_intText, hmode]

/-- A name has the values that the builder gives it if no header has the name. -/
theorem HttpResponse.values_iff (r : HttpResponse) {name : Bytes}
    (hcookie : ascii "set-cookie" ≠ name) :
    valuesOf name (r.entries.map entryField) = valuesOf name r.ownFields ↔
      name ∉ names r.headers := by
  rw [r.fields_eq, valuesOf_append, valuesOf_append, valuesOf_cookies hcookie, List.append_nil,
    List.append_left_eq_self, valuesOf_headers]

theorem HttpResponse.plain_startLine (r : HttpResponse) :
    Plain r.startLine ↔ Plain r.statusText := by
  constructor
  · intro h
    exact ⟨fun hmem => h.1 (List.mem_append_right _ hmem),
      fun hmem => h.2 (List.mem_append_right _ hmem)⟩
  · intro h
    have hcode : Plain (intText r.statusCode) :=
      plain_of_all (fieldByte_intText _) (by decide) (by decide)
    exact plain_append (plain_append (plain_append ⟨by decide, by decide⟩ hcode)
      ⟨by decide, by decide⟩) h

/-- No header has a name of the builder's own, and all are fields as the grammar wants them. -/
structure HttpResponse.Proper (r : HttpResponse) : Prop where
  status : Plain r.statusText
  grammatical : Grammatical r.headers r.setCookies
  notLength : contentLength ∉ names r.headers
  notConnection : connection ∉ names r.headers
  notEncoding : transferEncoding ∉ names r.headers

theorem HttpResponse.reads_iff (r : HttpResponse) : r.Reads ↔ r.Proper := by
  have hne : r.startLine ≠ [] := by
    intro h
    rw [HttpResponse.startLine, List.append_eq_nil_iff, List.append_eq_nil_iff,
      List.append_eq_nil_iff] at h
    exact absurd h.1.1.1 (by decide)
  have hread := readMessage_iff hne r.entries r.body
  rw [← r.build_eq, r.plain_startLine, r.good_iff] at hread
  have hlength : valuesOf contentLength r.ownFields = [intText r.body.length] := by
    rw [r.valuesOf_ownFields, if_pos rfl]
  have hconnection : valuesOf connection r.ownFields = [r.mode] := by
    rw [r.valuesOf_ownFields, if_neg (by decide), if_pos rfl]
  have hencoding : valuesOf transferEncoding r.ownFields = [] := by
    rw [r.valuesOf_ownFields, if_neg (by decide), if_neg (by decide)]
  rw [HttpResponse.Reads, hread, ← hlength, r.values_iff (by decide), ← hconnection,
    r.values_iff (by decide), ← hencoding, r.values_iff (by decide)]
  constructor
  · rintro ⟨⟨hstatus, hgrammar⟩, hl, hc, he⟩
    exact ⟨hstatus, hgrammar, hl, hc, he⟩
  · intro h
    exact ⟨⟨h.status, h.grammatical⟩, h.notLength, h.notConnection, h.notEncoding⟩

/-- Behind the start line stands one line for each entry, then an empty line and the body. -/
theorem HttpResponse.lines (r : HttpResponse) :
    ∃ rest, r.build = r.startLine ++ crlf ++ rest ∧
      readLines [] rest = some (r.entries.map entryLine, r.body) := by
  refine ⟨_, r.build_eq, readLines_entries ?_ r.body⟩
  rw [HttpResponse.entries, List.forall_mem_append, List.forall_mem_append]
  exact ⟨⟨plain_stripEntry, plain_cookieEntry⟩, fun e he => (r.good_ownFields e he).plain⟩

/-! ## The header section of FastCGI and CGI -/

def WebContext.statusEntry (w : WebContext) : Bytes × Bytes :=
  (ascii "Status", intText w.statusCode ++ ascii " " ++ w.statusText)

/-- The default Content-Type. -/
def WebContext.ownFields (w : WebContext) : List (Bytes × Bytes) :=
  if w.hasCt then [] else [(ascii "Content-Type", ascii "text/html; charset=utf-8")]

/-- The entries behind the Status line. -/
def WebContext.entries (w : WebContext) : List (Bytes × Bytes) :=
  w.headersOut.map stripEntry ++ w.setCookiesOut.map cookieEntry ++ w.ownFields

theorem WebContext.buildHeaders_eq (w : WebContext) (body : Bytes) :
    w.buildHeaders ++ body =
      entryText w.statusEntry ++ (w.entries.flatMap entryText ++ (crlf ++ body)) := by
  rw [WebContext.buildHeaders, flatMap_headers, flatMap_cookies, WebContext.entries,
    List.flatMap_append, List.flatMap_append, WebContext.ownFields]
  cases w.hasCt <;> simp [WebContext.statusEntry, entryText, entryLine, ascii]

/-- No header is another spelling of `Content-Type`. -/
def WebContext.OneSpelling (w : WebContext) : Prop :=
  ∀ e ∈ w.headersOut, lower (stripCrlf e.1) = contentType → e.1 = ascii "Content-Type"

/-- A strict reader finds a Status, one field for each header and each cookie, one Content-Type and
no other framing, and behind them what follows. -/
def WebContext.Reads (w : WebContext) (body : Bytes) : Prop :=
  readHeader (w.buildHeaders ++ body) =
      some (entryField w.statusEntry :: w.entries.map entryField, body) ∧
    (valuesOf contentType (w.entries.map entryField)).length = 1 ∧
    valuesOf contentLength (w.entries.map entryField) = [] ∧
    valuesOf transferEncoding (w.entries.map entryField) = []

structure WebContext.Proper (w : WebContext) : Prop where
  status : w.statusText.all isFieldByte = true
  grammatical : Grammatical w.headersOut w.setCookiesOut
  notLength : contentLength ∉ names w.headersOut
  notEncoding : transferEncoding ∉ names w.headersOut

theorem WebContext.good_ownFields (w : WebContext) : ∀ e ∈ w.ownFields, Good e := by
  intro e he
  rw [WebContext.ownFields] at he
  split at he
  · cases he
  · rw [List.mem_singleton.mp he]
    exact ⟨by decide, by decide⟩

theorem WebContext.good_iff (w : WebContext) :
    (∀ e ∈ w.statusEntry :: w.entries, Good e) ↔
      w.statusText.all isFieldByte = true ∧ Grammatical w.headersOut w.setCookiesOut := by
  have hstatus : Good w.statusEntry ↔ w.statusText.all isFieldByte = true := by
    have htoken : isToken (ascii "Status") = true := by decide
    rw [Good, WebContext.statusEntry, and_iff_right htoken, List.all_append, List.all_append,
      fieldByte_intText]
    exact Iff.rfl
  rw [List.forall_mem_cons, hstatus, WebContext.entries, List.forall_mem_append, grammatical_iff,
    and_iff_left w.good_ownFields]

theorem WebContext.fields_eq (w : WebContext) :
    w.entries.map entryField = (w.headersOut.map stripEntry).map entryField ++
      (w.setCookiesOut.map cookieEntry).map entryField ++ w.ownFields.map entryField := by
  rw [WebContext.entries, List.map_append, List.map_append]

theorem WebContext.values_iff (w : WebContext) {name : Bytes} (hcookie : ascii "set-cookie" ≠ name)
    (htype : contentType ≠ name) :
    valuesOf name (w.entries.map entryField) = [] ↔ name ∉ names w.headersOut := by
  have hown : valuesOf name (w.ownFields.map entryField) = [] := by
    have hlower : lower (ascii "Content-Type") = contentType := by decide
    rw [valuesOf_eq_nil, WebContext.ownFields]
    intro f hf
    split at hf
    · cases hf
    · rw [List.mem_singleton.mp hf]
      exact hlower ▸ htype
  rw [w.fields_eq, valuesOf_append, valuesOf_append, valuesOf_cookies hcookie, hown,
    List.append_nil, List.append_nil, valuesOf_headers]

/-- The keys of a map are distinct, so the one spelling is there at most once. -/
theorem WebContext.length_contentType {w : WebContext} (h : w.OneSpelling) :
    (valuesOf contentType ((w.headersOut.map stripEntry).map entryField)).length =
      if w.hasCt then 1 else 0 := by
  have hcount : (valuesOf contentType ((w.headersOut.map stripEntry).map entryField)).length =
      (w.headersOut.map Prod.fst).count (ascii "Content-Type") := by
    rw [valuesOf, List.length_map, ← List.countP_eq_length_filter, List.countP_map, List.countP_map,
      List.count, List.countP_map]
    refine List.countP_congr fun e he => ?_
    have hstrip : lower (stripCrlf (ascii "Content-Type")) = contentType := by decide
    have hspelling : lower (stripCrlf e.1) = contentType ↔ e.1 = ascii "Content-Type" :=
      ⟨h e he, fun heq => heq ▸ hstrip⟩
    simp only [Function.comp, decide_eq_true_eq, beq_iff_eq]
    exact hspelling
  rw [hcount, w.distinct.count]
  refine if_congr ?_ rfl rfl
  rw [WebContext.hasCt, List.any_eq_true, List.mem_map]
  simp

theorem WebContext.one_contentType {w : WebContext} (h : w.OneSpelling) :
    (valuesOf contentType (w.entries.map entryField)).length = 1 := by
  rw [w.fields_eq, valuesOf_append, valuesOf_append, valuesOf_cookies (by decide), List.append_nil,
    List.length_append, WebContext.length_contentType h, WebContext.ownFields]
  cases w.hasCt with
  | true => rfl
  | false => decide

theorem WebContext.reads_iff {w : WebContext} (h : w.OneSpelling) (body : Bytes) :
    w.Reads body ↔ w.Proper := by
  have hread := readHeader_iff (w.statusEntry :: w.entries) body
  rw [List.flatMap_cons, List.append_assoc, ← w.buildHeaders_eq, w.good_iff] at hread
  rw [WebContext.Reads, ← List.map_cons, hread, and_iff_right (WebContext.one_contentType h),
    w.values_iff (by decide) (by decide), w.values_iff (by decide) (by decide)]
  constructor
  · rintro ⟨⟨hstatus, hgrammar⟩, hl, he⟩
    exact ⟨hstatus, hgrammar, hl, he⟩
  · intro hp
    exact ⟨⟨hp.status, hp.grammatical⟩, hp.notLength, hp.notEncoding⟩

theorem WebContext.lines (w : WebContext) (body : Bytes) :
    ∃ rest, w.buildHeaders ++ body = entryText w.statusEntry ++ rest ∧
      readLines [] rest = some (w.entries.map entryLine, body) := by
  refine ⟨_, w.buildHeaders_eq body, readLines_entries ?_ body⟩
  rw [WebContext.entries, List.forall_mem_append, List.forall_mem_append]
  exact ⟨⟨plain_stripEntry, plain_cookieEntry⟩, fun e he => (w.good_ownFields e he).plain⟩

/-! ## Both builders -/

/-- Whatever the headers and cookies are, there is one line for each of them and for the builder's
own, and the header section ends where the builder ends it.  A strict reader agrees with the builder
exactly when all names are tokens, none is a name that frames the message, and no value has a
control character. -/
theorem response_framing (r : HttpResponse) (w : WebContext) (body : Bytes) :
    (∃ rest, r.build = r.startLine ++ crlf ++ rest ∧
      readLines [] rest = some (r.entries.map entryLine, r.body)) ∧
    (r.Reads ↔ r.Proper) ∧
    (∃ rest, w.buildHeaders ++ body = entryText w.statusEntry ++ rest ∧
      readLines [] rest = some (w.entries.map entryLine, body)) ∧
    (w.OneSpelling → (w.Reads body ↔ w.Proper)) :=
  ⟨r.lines, r.reads_iff, w.lines body, fun h => WebContext.reads_iff h body⟩

/-- With a header `Content-Length: 0` there are two lengths. -/
theorem response_two_lengths :
    ¬ ∀ r : HttpResponse, Plain r.statusText → r.Reads := by
  intro h
  have hproper := (HttpResponse.reads_iff _).mp
    (h ⟨200, ascii "OK", [(ascii "Content-Length", ascii "0")], [], ascii "x", false, by decide⟩
      ⟨by decide, by decide⟩)
  exact hproper.notLength (by decide)

end Response

end Look
