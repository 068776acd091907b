/-
Requests of HTTP/1.1 as a client sends them, and what the parser makes of them.

A message is made of the parts that RFC 9112 names, with the conditions on each as
fields, so that every message is well formed.  Its head parses to a request with the
same parts when repeated fields agree; the map of the parser keeps one value for each
name.
-/
import Look.Net.Connection
import Look.Net.Framing

namespace Look

namespace Http

/-! ## Lines -/

/-- Lines with a CRLF between them. -/
def joinLines : List Bytes → Bytes
  | [] => []
  | [line] => line
  | line :: next :: lines => line ++ crlf ++ joinLines (next :: lines)

/-- A line of a head. -/
def PlainLine (line : Bytes) : Prop := line ≠ [] ∧ cr ∉ line ∧ lf ∉ line

theorem breakOn_line {line s : Bytes} (h : cr ∉ line) :
    breakOn crlfcrlf (line ++ s) = (breakOn crlfcrlf s).map fun (x, y) => (line ++ x, y) :=
  breakOn_skip h

/-- A CRLF before a line is not the end of the head. -/
theorem breakOn_next {b : UInt8} {s : Bytes} (h : b ≠ cr) :
    breakOn crlfcrlf (crlf ++ b :: s) =
      (breakOn crlfcrlf (b :: s)).map fun (x, y) => (crlf ++ x, y) := by
  have hb : ((13 : UInt8) == b) = false := beq_eq_false_iff_ne.mpr (Ne.symm h)
  have hfirst : crlfcrlf.isPrefixOf (crlf ++ b :: s) = false := by
    simp [crlfcrlf, crlf, List.isPrefixOf, hb]
  have hsecond : crlfcrlf.isPrefixOf (10 :: b :: s) = false := rfl
  rw [crlf, List.cons_append, List.cons_append, List.nil_append] at *
  rw [breakOn, if_neg (by rw [hfirst]; decide), breakOn, if_neg (by rw [hsecond]; decide),
    Option.map_map]
  rfl

theorem joinLines_head {line : Bytes} (lines : List Bytes) (h : PlainLine line) (s : Bytes) :
    ∃ b rest, joinLines (line :: lines) ++ s = b :: rest ∧ b ≠ cr := by
  obtain ⟨hne, hcr, -⟩ := h
  obtain ⟨b, tail, rfl⟩ := List.exists_cons_of_ne_nil hne
  have hb : b ≠ cr := by
    rintro rfl
    exact hcr List.mem_cons_self
  cases lines with
  | nil => exact ⟨b, _, rfl, hb⟩
  | cons next lines => exact ⟨b, _, rfl, hb⟩

/-- The head ends behind its last line and not before. -/
theorem breakOn_joinLines {lines : List Bytes} (hlines : ∀ l ∈ lines, PlainLine l)
    (hne : lines ≠ []) (behind : Bytes) :
    breakOn crlfcrlf (joinLines lines ++ (crlfcrlf ++ behind)) = some (joinLines lines, behind) := by
  induction lines with
  | nil => exact absurd rfl hne
  | cons line lines ih =>
    obtain ⟨-, hcr, -⟩ := hlines line List.mem_cons_self
    cases lines with
    | nil =>
      have hhere : breakOn crlfcrlf (crlfcrlf ++ behind) = some ([], behind) := rfl
      rw [joinLines, breakOn_line hcr, hhere]
      simp
    | cons next lines =>
      have hrest := ih (fun l hl => hlines l (List.mem_cons_of_mem _ hl)) nofun
      obtain ⟨b, rest, hb, hbcr⟩ := joinLines_head lines
        (hlines next (List.mem_cons_of_mem _ List.mem_cons_self)) (crlfcrlf ++ behind)
      rw [joinLines, List.append_assoc, List.append_assoc, breakOn_line hcr, hb,
        breakOn_next hbcr, ← hb, hrest]
      simp

theorem splitCrlf_line {line : Bytes} (h : cr ∉ line) : splitCrlf line = [line] := by
  induction line with
  | nil => rfl
  | cons b line ih =>
    have hb : b ≠ cr := by
      rintro rfl
      exact h List.mem_cons_self
    cases line with
    | nil => rfl
    | cons b' line =>
      rw [splitCrlf, if_neg (fun hcr => hb hcr.1), ih fun hx => h (List.mem_cons_of_mem _ hx)]
      rfl

theorem splitCrlf_append {line s : Bytes} (h : cr ∉ line) :
    splitCrlf (line ++ crlf ++ s) = line :: splitCrlf s := by
  induction line with
  | nil => rfl
  | cons b line ih =>
    have hb : b ≠ cr := by
      rintro rfl
      exact h List.mem_cons_self
    have hrest := ih fun hx => h (List.mem_cons_of_mem _ hx)
    obtain ⟨c, t, ht⟩ : ∃ c t, line ++ crlf ++ s = c :: t := by
      cases line with
      | nil => exact ⟨13, _, rfl⟩
      | cons c t => exact ⟨c, _, rfl⟩
    rw [List.cons_append, List.cons_append, ht, splitCrlf, if_neg (fun hcr => hb hcr.1), ← ht, hrest]
    rfl

theorem splitCrlf_joinLines {lines : List Bytes} (hlines : ∀ l ∈ lines, PlainLine l)
    (hne : lines ≠ []) : splitCrlf (joinLines lines) = lines := by
  induction lines with
  | nil => exact absurd rfl hne
  | cons line lines ih =>
    obtain ⟨-, hcr, -⟩ := hlines line List.mem_cons_self
    cases lines with
    | nil => exact splitCrlf_line hcr
    | cons next lines =>
      rw [joinLines, splitCrlf_append hcr,
        ih (fun l hl => hlines l (List.mem_cons_of_mem _ hl)) nofun]

theorem strictCrlf_append {line s : Bytes} (hcr : cr ∉ line) (hlf : lf ∉ line) :
    strictCrlf false (line ++ s) = strictCrlf false s := by
  induction line with
  | nil => rfl
  | cons b line ih =>
    have hbcr : (b == cr) = false := by
      rw [beq_eq_false_iff_ne]
      rintro rfl
      exact hcr List.mem_cons_self
    have hblf : b ≠ lf := by
      rintro rfl
      exact hlf List.mem_cons_self
    rw [List.cons_append, strictCrlf, if_neg Bool.false_ne_true, if_neg hblf, hbcr]
    exact ih (fun h => hcr (List.mem_cons_of_mem _ h)) fun h => hlf (List.mem_cons_of_mem _ h)

theorem strictCrlf_joinLines {lines : List Bytes} (hlines : ∀ l ∈ lines, PlainLine l) :
    strictCrlf false (joinLines lines) = true := by
  induction lines with
  | nil => rfl
  | cons line lines ih =>
    obtain ⟨-, hcr, hlf⟩ := hlines line List.mem_cons_self
    cases lines with
    | nil =>
      have h := strictCrlf_append (s := []) hcr hlf
      rw [List.append_nil] at h
      exact h
    | cons next lines =>
      rw [joinLines, List.append_assoc, strictCrlf_append hcr hlf]
      exact ih fun l hl => hlines l (List.mem_cons_of_mem _ hl)

/-! ## Requests -/

/-- A header field, with the blanks around its value. -/
structure Field where
  name : Bytes
  before : Bytes
  value : Bytes
  after : Bytes
  name_token : isToken name = true
  before_blank : before.all isBlank = true
  after_blank : after.all isBlank = true
  value_plain : cr ∉ value ∧ lf ∉ value
  value_trimmed : value.head?.any isBlank = false ∧ value.getLast?.any isBlank = false

namespace Field

def line (f : Field) : Bytes := f.name ++ colon :: (f.before ++ f.value ++ f.after)

theorem name_tchar (f : Field) {b : UInt8} (h : b ∈ f.name) : isTchar b = true := by
  have htoken := f.name_token
  rw [isToken, Bool.and_eq_true] at htoken
  exact List.all_eq_true.mp htoken.2 b h

theorem notMem_name (f : Field) {b : UInt8} (h : isTchar b = false) : b ∉ f.name := by
  intro hmem
  rw [f.name_tchar hmem] at h
  cases h

theorem notMem_line (f : Field) {b : UInt8} (htchar : isTchar b = false) (hcolon : b ≠ colon)
    (hblank : isBlank b = false) (hvalue : b ∉ f.value) : b ∉ f.line := by
  have hbefore : b ∉ f.before := by
    intro h
    rw [List.all_eq_true.mp f.before_blank b h] at hblank
    cases hblank
  have hafter : b ∉ f.after := by
    intro h
    rw [List.all_eq_true.mp f.after_blank b h] at hblank
    cases hblank
  simp [line, f.notMem_name htchar, hcolon, hbefore, hvalue, hafter]

theorem plain (f : Field) : PlainLine f.line := by
  refine ⟨by simp [line], ?_, ?_⟩
  · exact f.notMem_line (by decide) (by decide) (by decide) f.value_plain.1
  · exact f.notMem_line (by decide) (by decide) (by decide) f.value_plain.2

theorem breakOn_line (f : Field) :
    breakOn [colon] f.line = some (f.name, f.before ++ f.value ++ f.after) :=
  breakOn_single (f.notMem_name (by decide))

end Field

theorem dropWhile_blanks {s t : Bytes} (hs : s.all isBlank = true)
    (ht : t.head?.any isBlank = false) : (s ++ t).dropWhile isBlank = t := by
  induction s with
  | nil =>
    cases t with
    | nil => rfl
    | cons b t =>
      have hb : isBlank b = false := ht
      rw [List.nil_append, List.dropWhile_cons, hb]
      rfl
  | cons b s ih =>
    rw [List.all_cons, Bool.and_eq_true] at hs
    rw [List.cons_append, List.dropWhile_cons, hs.1, if_pos rfl]
    exact ih hs.2

theorem trim_blanks {before value after : Bytes} (hbefore : before.all isBlank = true)
    (hafter : after.all isBlank = true) (hhead : value.head?.any isBlank = false)
    (hlast : value.getLast?.any isBlank = false) : trim (before ++ value ++ after) = value := by
  cases value with
  | nil =>
    have hblank : (before ++ after).all isBlank = true := by
      rw [List.all_append, hbefore, hafter]
      rfl
    have hdrop := dropWhile_blanks (t := []) hblank rfl
    rw [List.append_nil] at hdrop
    rw [trim, List.append_nil, hdrop]
    rfl
  | cons b value =>
    have hdrop : (before ++ (b :: value ++ after)).dropWhile isBlank = b :: value ++ after :=
      dropWhile_blanks hbefore hhead
    have hreverse : (after.reverse ++ (b :: value).reverse).dropWhile isBlank =
        (b :: value).reverse := by
      refine dropWhile_blanks ?_ ?_
      · rw [List.all_reverse]
        exact hafter
      · rw [List.head?_reverse]
        exact hlast
    rw [trim, List.append_assoc, hdrop, List.reverse_append, hreverse, List.reverse_reverse]

theorem Field.trim_eq (f : Field) : trim (f.before ++ f.value ++ f.after) = f.value :=
  trim_blanks f.before_blank f.after_blank f.value_trimmed.1 f.value_trimmed.2

/-- The value that a line of a field gives to a name. -/
theorem Field.value?_line (f : Field) (name : Bytes) :
    value? name f.line = if lower f.name = name then some f.value else none := by
  rw [value?, f.breakOn_line]
  dsimp only
  rw [f.trim_eq]

/-- What the loop over the header lines does with a field. -/
theorem Field.parseHeaderLine_line (f : Field) {headers : Headers}
    (h : lower f.name = contentLength → ∀ v, AssocList.lookup contentLength headers = some v →
      v = f.value) :
    parseHeaderLine headers f.line =
      some (AssocList.upsert (lower f.name) f.value headers) := by
  have hname : f.name ≠ [] := by
    have htoken := f.name_token
    rw [isToken, Bool.and_eq_true] at htoken
    simpa using htoken.1
  have hblank : ∀ b ∈ f.name, isBlank b = false := by
    intro b hb
    by_contra hblank
    rw [Bool.not_eq_false, isBlank, Bool.or_eq_true, beq_iff_eq, beq_iff_eq] at hblank
    rcases hblank with rfl | rfl
    · exact f.notMem_name (by decide) hb
    · exact f.notMem_name (by decide) hb
  have hfold : f.line.head?.any isBlank = false := by
    obtain ⟨b, name, hb⟩ := List.exists_cons_of_ne_nil hname
    have hfirst := hblank b (by rw [hb]; exact List.mem_cons_self)
    rw [Field.line, hb]
    simpa using hfirst
  have hlast : f.name.getLast?.any isBlank = false := by
    cases hget : f.name.getLast? with
    | none => rfl
    | some b => exact hblank b (List.mem_of_getLast? hget)
  have hsame : ¬ (lower f.name = contentLength ∧
      (AssocList.lookup contentLength headers).any (· != f.value) = true) := by
    rintro ⟨hlength, hother⟩
    cases hlookup : AssocList.lookup contentLength headers with
    | none =>
      rw [hlookup] at hother
      cases hother
    | some v =>
      rw [hlookup, h hlength v hlookup] at hother
      simp at hother
  rw [parseHeaderLine, hfold, if_neg Bool.false_ne_true, f.breakOn_line]
  dsimp only
  rw [hlast, if_neg Bool.false_ne_true, f.trim_eq, if_neg hsame]

/-- A field that is repeated has the same value each time. -/
def Consistent (fields : List Field) : Prop :=
  ∀ f ∈ fields, ∀ g ∈ fields, lower f.name = lower g.name → f.value = g.value

/-- The values of a name. -/
def fieldValues (name : Bytes) (fields : List Field) : List Bytes :=
  fields.filterMap fun f => if lower f.name = name then some f.value else none

theorem mem_fieldValues {name v : Bytes} {fields : List Field} :
    v ∈ fieldValues name fields ↔ ∃ f ∈ fields, lower f.name = name ∧ f.value = v := by
  simp [fieldValues, List.mem_filterMap]

theorem values_lines (name : Bytes) (fields : List Field) :
    values name (fields.map Field.line) = fieldValues name fields := by
  rw [values, fieldValues, List.filterMap_map]
  exact List.filterMap_congr fun f _ => f.value?_line name

/-- The loop accepts the fields, when no Content-Length contradicts another. -/
theorem foldlM_fields (length : Bytes) {fields : List Field} {headers : Headers}
    (hlengths : ∀ f ∈ fields, lower f.name = contentLength → f.value = length)
    (hheaders : ∀ v, AssocList.lookup contentLength headers = some v → v = length) :
    ∃ headers', (fields.map Field.line).foldlM parseHeaderLine headers = some headers' := by
  induction fields generalizing headers with
  | nil => exact ⟨headers, rfl⟩
  | cons f fields ih =>
    have hf := hlengths f List.mem_cons_self
    have hline := f.parseHeaderLine_line fun hname v hv => (hheaders v hv).trans (hf hname).symm
    rw [List.map_cons, List.foldlM_cons, hline]
    refine ih (fun g hg => hlengths g (List.mem_cons_of_mem _ hg)) ?_
    intro v hv
    by_cases hname : lower f.name = contentLength
    · rw [hname, AssocList.lookup_upsert_self] at hv
      cases hv
      exact hf hname
    · rw [AssocList.lookup_upsert_of_ne _ _ (Ne.symm hname)] at hv
      exact hheaders v hv

/-- The map of the fields that the loop has accepted. -/
theorem lookup_fields {fields : List Field} {headers : Headers}
    (h : (fields.map Field.line).foldlM parseHeaderLine [] = some headers) (name : Bytes) :
    AssocList.lookup name headers = (fieldValues name fields).getLast? := by
  obtain ⟨-, -, hlookup, -, -⟩ := foldlM_parseHeaderLine h
  rw [hlookup, values_lines]
  exact Option.or_none

/-- Where repeated fields agree, the map has the values of all the fields. -/
theorem Consistent.lookup_eq {fields : List Field} {headers : Headers} (hfields : Consistent fields)
    (h : (fields.map Field.line).foldlM parseHeaderLine [] = some headers) {f : Field}
    (hf : f ∈ fields) : AssocList.lookup (lower f.name) headers = some f.value := by
  have hmem : f.value ∈ fieldValues (lower f.name) fields := mem_fieldValues.mpr ⟨f, hf, rfl, rfl⟩
  rw [lookup_fields h]
  cases hlast : (fieldValues (lower f.name) fields).getLast? with
  | none =>
    rw [List.getLast?_eq_none_iff] at hlast
    rw [hlast] at hmem
    cases hmem
  | some v =>
    obtain ⟨g, hg, hname, rfl⟩ := mem_fieldValues.mp (List.mem_of_getLast? hlast)
    rw [hfields g hg f hf hname]

/-- How the body is sent. -/
inductive Payload where
  | empty
  | length (body : Bytes)
  | chunked (e : Encoding)

namespace Payload

def body : Payload → Bytes
  | .empty => []
  | .length body => body
  | .chunked e => e.body

def bytes : Payload → Bytes
  | .empty => []
  | .length body => body
  | .chunked e => e.bytes

def framing : Payload → Framing
  | .empty => .empty
  | .length body => .length body.length
  | .chunked _ => .chunked

/-- The fields announce the body. -/
def Announced (fields : List Field) : Payload → Prop
  | .empty => fieldValues contentLength fields = [] ∧ fieldValues transferEncoding fields = []
  | .length body =>
    fieldValues contentLength fields ≠ [] ∧
    (∀ v ∈ fieldValues contentLength fields, IsDecimal v ∧ decimal v = body.length) ∧
    fieldValues transferEncoding fields = []
  | .chunked _ =>
    fieldValues contentLength fields = [] ∧
    ∃ te, fieldValues transferEncoding fields = [te] ∧ lower te = ascii "chunked"

end Payload

/-- A request of HTTP/1.1. -/
structure Message where
  method : Bytes
  target : Bytes
  fields : List Field
  payload : Payload
  method_token : isToken method = true
  target_plain : sp ∉ target ∧ cr ∉ target ∧ lf ∉ target
  announced : payload.Announced fields

namespace Message

def requestLine (m : Message) : Bytes := m.method ++ sp :: (m.target ++ sp :: http11)

def headLines (m : Message) : List Bytes := m.requestLine :: m.fields.map Field.line

def head (m : Message) : Bytes := joinLines m.headLines ++ crlfcrlf

def bytes (m : Message) : Bytes := m.head ++ m.payload.bytes

/-- The request that the handler sees is this one: its method, its target, its fields
and its body. -/
structure Delivered (m : Message) (req : Request) : Prop where
  method : req.method = m.method
  path : 63 ∉ req.path
  target : m.target = req.path ∧ req.queryString = [] ∨
    m.target = req.path ++ 63 :: req.queryString
  version : req.version = http11
  fields : ∀ f ∈ m.fields, AssocList.lookup (lower f.name) req.headers = some f.value
  noOther : ∀ name v, AssocList.lookup name req.headers = some v →
    ∃ f ∈ m.fields, lower f.name = name ∧ f.value = v
  body : req.body = m.payload.body

/-- The limits of the server. -/
structure Within (maxBody : Nat) (m : Message) : Prop where
  head : m.head.length + 65535 ≤ headLimit ∨ m.bytes.length ≤ headLimit
  body : m.payload.body.length ≤ maxBody
  length : ∀ v ∈ fieldValues contentLength m.fields, v.length ≤ 19
  chunked : ∀ e, m.payload = .chunked e →
    (∀ l ∈ e.sizeLines, l.text.length ≤ 63) ∧ e.bytes.length ≤ rawLimit maxBody

variable {m : Message}

theorem method_notMem (m : Message) {b : UInt8} (h : isTchar b = false) : b ∉ m.method := by
  intro hmem
  have htoken := m.method_token
  rw [isToken, Bool.and_eq_true] at htoken
  rw [List.all_eq_true.mp htoken.2 b hmem] at h
  cases h

theorem requestLine_plain (m : Message) : PlainLine m.requestLine := by
  obtain ⟨-, hcr, hlf⟩ := m.target_plain
  refine ⟨by simp [requestLine], ?_, ?_⟩
  · rw [requestLine, List.mem_append, List.mem_cons, List.mem_append, List.mem_cons]
    rintro (h | h | h | h | h)
    · exact m.method_notMem (by decide) h
    · cases h
    · exact hcr h
    · cases h
    · exact absurd h (by decide)
  · rw [requestLine, List.mem_append, List.mem_cons, List.mem_append, List.mem_cons]
    rintro (h | h | h | h | h)
    · exact m.method_notMem (by decide) h
    · cases h
    · exact hlf h
    · cases h
    · exact absurd h (by decide)

theorem headLines_plain (m : Message) : ∀ l ∈ m.headLines, PlainLine l := by
  intro l hl
  rcases List.mem_cons.mp hl with rfl | hl
  · exact m.requestLine_plain
  · obtain ⟨f, -, rfl⟩ := List.mem_map.mp hl
    exact f.plain

theorem breakOn_head (m : Message) (behind : Bytes) :
    breakOn crlfcrlf (m.head ++ behind) = some (joinLines m.headLines, behind) := by
  rw [head, List.append_assoc]
  exact breakOn_joinLines m.headLines_plain nofun behind

theorem breakOn_first_line (m : Message) (behind : Bytes) :
    ∃ rest, breakOn crlf (m.head ++ behind) = some (m.requestLine, rest) := by
  obtain ⟨-, hcr, -⟩ := m.requestLine_plain
  rw [head, headLines]
  cases m.fields with
  | nil =>
    refine ⟨crlf ++ behind, ?_⟩
    rw [List.map_nil, joinLines, ← breakOn_crlf hcr]
    simp [crlfcrlf, crlf]
  | cons f fields =>
    refine ⟨joinLines (f.line :: fields.map Field.line) ++ crlfcrlf ++ behind, ?_⟩
    rw [List.map_cons, joinLines, ← breakOn_crlf hcr]
    simp only [List.append_assoc]

theorem parseRequestLine_eq (m : Message) :
    parseRequestLine m.requestLine = some (m.method, m.target, http11) := by
  have hmethod : breakOn [sp] m.requestLine = some (m.method, m.target ++ sp :: http11) :=
    breakOn_single (m.method_notMem (by decide))
  have hversion : breakOn [sp] (m.target ++ sp :: http11).reverse =
      some (http11.reverse, m.target.reverse) := by
    rw [List.reverse_append, List.reverse_cons, List.append_assoc]
    exact breakOn_single (by decide)
  rw [parseRequestLine, hmethod]
  simp only [Option.bind_eq_bind, Option.bind_some]
  rw [hversion]
  simp

/-- One of the fields with this name has a value of this kind. -/
def HasField (m : Message) (name : Bytes) (p : Bytes → Bool) : Prop :=
  ∃ f ∈ m.fields, lower f.name = name ∧ p f.value = true

/-- The request asks for a connection that is handed over to the event loop. -/
def Upgrades (srv : Server) (m : Message) : Prop :=
  srv.wsHandler = true ∧ m.HasField (ascii "upgrade")
    (fun v => contains (ascii "websocket") (lower v)) ∨
  srv.sseHandler = true ∧ m.HasField (ascii "accept") (contains (ascii "text/event-stream"))

/-- The Connection field does not say `close`, or says `keep-alive` as well. -/
def KeepsAlive (m : Message) : Prop :=
  m.HasField (ascii "connection") (fun v => contains (ascii "close") (lower v)) →
  m.HasField (ascii "connection") (fun v => contains (ascii "keep-alive") (lower v))

/-- A request that stands for the message, with what decides how it is dispatched. -/
structure Parsed (m : Message) (req : Request) : Prop where
  method : req.method = m.method
  path : 63 ∉ req.path
  target : m.target = req.path ∧ req.queryString = [] ∨
    m.target = req.path ++ 63 :: req.queryString
  version : req.version = http11
  headers : (m.fields.map Field.line).foldlM parseHeaderLine [] = some req.headers
  websocket : req.upgradeWebsocket = (AssocList.lookup (ascii "upgrade") req.headers).any
    fun v => contains (ascii "websocket") (lower v)
  sse : req.upgradeSse = (AssocList.lookup (ascii "accept") req.headers).any
    (contains (ascii "text/event-stream"))

/-- The parser accepts the head. -/
theorem parseRequest_head (hfields : Consistent m.fields) (behind : Bytes) :
    ∃ req, parseRequest (m.head ++ behind) = some req ∧ m.Parsed req := by
  obtain ⟨rest, hline⟩ := m.breakOn_first_line behind
  obtain ⟨headers, hheaders⟩ : ∃ headers,
      (m.fields.map Field.line).foldlM parseHeaderLine [] = some headers := by
    by_cases hlength : ∃ f ∈ m.fields, lower f.name = contentLength
    · obtain ⟨f, hf, hname⟩ := hlength
      exact foldlM_fields f.value (fun g hg h => hfields g hg f hf (h.trans hname.symm)) nofun
    · exact foldlM_fields [] (fun g hg h => absurd ⟨g, hg, h⟩ hlength) nofun
  have hsplit : (splitCrlf (joinLines m.headLines)).tail = m.fields.map Field.line := by
    rw [splitCrlf_joinLines m.headLines_plain nofun]
    rfl
  -- The path ends at the first question mark.
  obtain ⟨path, query, hcut, hpath, htarget⟩ : ∃ path query,
      (breakOn [63] m.target).getD (m.target, []) = (path, query) ∧ 63 ∉ path ∧
      (m.target = path ∧ query = [] ∨ m.target = path ++ 63 :: query) := by
    cases hbreak : breakOn [63] m.target with
    | none =>
      exact ⟨m.target, [], rfl, notMem_of_breakOn hbreak, Or.inl ⟨rfl, rfl⟩⟩
    | some found =>
      obtain ⟨path, query⟩ := found
      obtain ⟨heq, hnot⟩ := breakOn_single_eq hbreak
      exact ⟨path, query, rfl, hnot, Or.inr heq⟩
  rw [parseRequest, hline]
  simp only [Option.bind_eq_bind, Option.bind_some, m.parseRequestLine_eq, m.breakOn_head behind,
    strictCrlf_joinLines m.headLines_plain, if_true, hsplit, hheaders, hcut]
  exact ⟨_, rfl, rfl, hpath, htarget, rfl, hheaders, rfl, rfl⟩

section Parsed

variable {req : Request}

/-- A field of the message is what the map has. -/
theorem Parsed.any_lookup (h : m.Parsed req) (hfields : Consistent m.fields) (name : Bytes)
    (p : Bytes → Bool) :
    (AssocList.lookup name req.headers).any p = true ↔ m.HasField name p := by
  constructor
  · intro hany
    obtain ⟨v, hv, hp⟩ := (Option.any_eq_true _ _).mp hany
    rw [lookup_fields h.headers] at hv
    obtain ⟨f, hf, hname, rfl⟩ := mem_fieldValues.mp (List.mem_of_getLast? hv)
    exact ⟨f, hf, hname, hp⟩
  · rintro ⟨f, hf, rfl, hp⟩
    rw [hfields.lookup_eq h.headers hf]
    exact hp

theorem Parsed.delivered (h : m.Parsed req) (hfields : Consistent m.fields) :
    m.Delivered { req with body := m.payload.body } where
  method := h.method
  path := h.path
  target := h.target
  version := h.version
  fields f hf := hfields.lookup_eq h.headers hf
  noOther name v hv := by
    rw [lookup_fields h.headers] at hv
    exact mem_fieldValues.mp (List.mem_of_getLast? hv)
  body := rfl

/-- The map of a delivered request has one value for each name. -/
theorem Delivered.consistent (h : m.Delivered req) : Consistent m.fields := by
  intro f hf g hg hname
  have hvalue := h.fields f hf
  rw [hname, h.fields g hg] at hvalue
  exact (Option.some.inj hvalue).symm

theorem Parsed.framing_eq {maxBody : Nat} (h : m.Parsed req) (hm : m.Within maxBody) :
    framing maxBody req.headers = .ok m.payload.framing := by
  have hannounced := m.announced
  have hlength := hm.length
  have hbody := hm.body
  rw [framing, lookup_fields h.headers, lookup_fields h.headers]
  cases hpayload : m.payload with
  | empty =>
    rw [hpayload] at hannounced
    rw [hannounced.1, hannounced.2]
    rfl
  | length body =>
    rw [hpayload] at hannounced hbody
    obtain ⟨hne, hvalues, hte⟩ := hannounced
    rw [hte]
    cases hlast : (fieldValues contentLength m.fields).getLast? with
    | none => exact absurd (List.getLast?_eq_none_iff.mp hlast) hne
    | some v =>
      have hv := List.mem_of_getLast? hlast
      obtain ⟨⟨hempty, hdigits⟩, hdecimal⟩ := hvalues v hv
      have hnot : (v.isEmpty || decide (19 < v.length) || !v.all isDigit) = false := by
        rw [hdigits, Bool.not_true, Bool.or_false, Bool.or_eq_false_iff]
        exact ⟨by simpa using hempty, by simpa using hlength v hv⟩
      dsimp only [List.getLast?_nil]
      rw [hnot, if_neg Bool.false_ne_true, hdecimal, if_neg]
      · rfl
      · exact Nat.not_lt.mpr hbody
  | chunked e =>
    rw [hpayload] at hannounced
    obtain ⟨hcl, te, hte, hchunked⟩ := hannounced
    rw [hcl, hte]
    exact if_pos hchunked

theorem Parsed.reqKeepAlive_iff (h : m.Parsed req) (hfields : Consistent m.fields) :
    reqKeepAlive req = true ↔ m.KeepsAlive := by
  rw [KeepsAlive, ← h.any_lookup hfields, ← h.any_lookup hfields, reqKeepAlive, h.version]
  cases AssocList.lookup (ascii "connection") req.headers with
  | none => simp
  | some v =>
    dsimp only [Option.any_some]
    cases contains (ascii "close") (lower v) <;>
      cases contains (ascii "keep-alive") (lower v) <;> simp

/-- The request as it is dispatched. -/
theorem Parsed.dispatch_eq {srv : Server} {calls : List Request} {body : Bytes}
    {unread : List Bytes} (h : m.Parsed req) (hfields : Consistent m.fields)
    (hresponds : ∀ calls keep, srv.responds calls keep = keep) :
    (m.Upgrades srv ∧ dispatch srv calls { req with body := body } unread =
        .handedOver { req with body := body }) ∨
    (¬ m.Upgrades srv ∧ ∃ stays, (stays = true ↔ m.KeepsAlive) ∧
      dispatch srv calls { req with body := body } unread =
        .called { req with body := body } stays unread) := by
  have hws := h.any_lookup hfields (ascii "upgrade") fun v => contains (ascii "websocket") (lower v)
  have hsse := h.any_lookup hfields (ascii "accept") (contains (ascii "text/event-stream"))
  rw [← h.websocket] at hws
  rw [← h.sse] at hsse
  have hupgrades : m.Upgrades srv ↔
      (req.upgradeWebsocket && srv.wsHandler || req.upgradeSse && srv.sseHandler) = true := by
    rw [Upgrades, ← hws, ← hsse]
    simp only [Bool.or_eq_true, Bool.and_eq_true, and_comm]
  rw [hupgrades, dispatch, hresponds]
  cases hw : req.upgradeWebsocket && srv.wsHandler with
  | true => exact Or.inl ⟨rfl, if_pos rfl⟩
  | false =>
    rw [if_neg Bool.false_ne_true, Bool.false_or]
    cases hs : req.upgradeSse && srv.sseHandler with
    | true => exact Or.inl ⟨rfl, if_pos rfl⟩
    | false =>
      rw [if_neg Bool.false_ne_true]
      exact Or.inr ⟨Bool.false_ne_true, _, h.reqKeepAlive_iff hfields, rfl⟩

end Parsed

end Message

end Http

end Look
