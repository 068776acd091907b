/-
Forms in a multipart body: `parse_post_body` and `parse_multipart`.

The parser looks for the delimiter, takes the header lines up to an empty line, and what is left up
to the next delimiter is the content.  The names are found with a search for `name="` in the line
of the Content-Disposition, which `filename="` also has in it.
-/
import Look.Net.Message
import Look.Web.Forms

namespace Look

namespace Form

open Http (Bytes cr lf crlf crlfcrlf joinLines PlainLine)

def dquote : UInt8 := 34

def dashes : Bytes := ascii "--"

/-! ## The parser -/

/-- `extract`. -/
def extract (key line : Bytes) : Bytes :=
  match breakOn (key ++ [equals, dquote]) line with
  | none => []
  | some (_, rest) =>
    match breakOn [dquote] rest with
    | none => []
    | some (v, _) => v

def stripCr (line : Bytes) : Bytes := if line.getLast? = some cr then line.dropLast else line

def disposition : Bytes := ascii "Content-Disposition:"

/-- `field_name` and `filename`, from the last line with a Content-Disposition. -/
def partNames (rawHeaders : Bytes) : Bytes × Bytes :=
  (getlines lf rawHeaders).foldl (fun names line =>
    if (breakOn disposition (stripCr line)).isSome then
      (extract (ascii "name") (stripCr line), extract (ascii "filename") (stripCr line))
    else names) ([], [])

/-- `orig_name`: the name behind the last slash, without control characters. -/
def origName (filename : Bytes) : Bytes :=
  let fn := (filename.reverse.takeWhile fun c => c ≠ 47 ∧ c ≠ 92).reverse
  (fn.filter fun c => 0x20 ≤ c ∧ c ≠ 0x7F).take 255

/-- What is stored for a part: a field, or a file. -/
inductive Stored where
  | field (name value : Bytes)
  | file (name origName content : Bytes)

def storePart (names : Bytes × Bytes) (data : Bytes) : Option Stored :=
  if names.2 ≠ [] ∧ names.1 ≠ [] then some (.file names.1 (origName names.2) data)
  else if names.1 ≠ [] then some (.field names.1 data)
  else none

/-- Skip a byte, if it comes next. -/
def skip (b : UInt8) : Bytes → Bytes
  | [] => []
  | c :: s => if c = b then s else c :: s

/-- The loop of `parse_multipart`, from behind a delimiter on, for so many parts.  The delimiter
that ends a part is the one that `find` finds next. -/
def parseParts (delim : Bytes) : Nat → Bytes → List Stored
  | 0, _ => []
  | parts + 1, s =>
    if dashes.isPrefixOf s then []
    else
      match breakOn crlfcrlf (skip lf (skip cr s)) with
      | none => []
      | some (rawHeaders, rest) =>
        match breakOn (crlf ++ delim) rest with
        | none => []
        | some (data, behind) =>
          (storePart (partNames rawHeaders) data).toList ++ parseParts delim parts behind

/-- `MAX_PARTS`. -/
def maxParts : Nat := 1000

/-- `parse_multipart`. -/
def parseMultipart (boundary body : Bytes) : List Stored :=
  match breakOn (dashes ++ boundary) body with
  | none => []
  | some (_, behind) => parseParts (dashes ++ boundary) maxParts behind

/-- `post_params` and `uploaded_files`; a file with its original name and its content. -/
structure Posted where
  params : List (Bytes × Bytes)
  files : List (Bytes × Bytes × Bytes)

def Stored.param? : Stored → Option (Bytes × Bytes)
  | .field name value => some (name, value)
  | .file .. => none

def Stored.file? : Stored → Option (Bytes × Bytes × Bytes)
  | .field .. => none
  | .file name orig content => some (name, orig, content)

def posted (stored : List Stored) : Posted :=
  ⟨AssocList.upsertAll (stored.filterMap Stored.param?),
    AssocList.upsertAll (stored.filterMap Stored.file?)⟩

/-- `WebContext::parse_post_body`. -/
def parsePostBody (contentType body : Bytes) : Posted :=
  if (breakOn (ascii "application/x-www-form-urlencoded") contentType).isSome then
    ⟨parseQuery body, []⟩
  else if (breakOn (ascii "multipart/form-data") contentType).isSome then
    match breakOn (ascii "boundary=") contentType with
    | none => ⟨[], []⟩
    | some (_, boundary) => posted (parseMultipart boundary body)
  else ⟨[], []⟩

/-! ## Encoded forms -/

/-- A text that can stand in quotes. -/
def Quotable (s : Bytes) : Prop := dquote ∉ s ∧ cr ∉ s ∧ lf ∉ s

/-- A field or a file, with the order of its parameters and further header lines. -/
structure Part where
  header : Bytes
  name : Bytes
  filename : Option Bytes
  filenameFirst : Bool
  before : List Bytes
  after : List Bytes
  content : Bytes
  headerOk : Http.lower header = ascii "content-disposition"
  nameOk : Quotable name
  filenameOk : ∀ f ∈ filename, Quotable f
  linesOk : ∀ l ∈ before ++ after, PlainLine l ∧ breakOn disposition l = none

def parameter (key value : Bytes) : Bytes := key ++ equals :: dquote :: (value ++ [dquote])

/-- What stands before the parameters. -/
def Part.lead (p : Part) : Bytes := p.header ++ ascii ": form-data; "

/-- The line with the names. -/
def Part.dispositionLine (p : Part) : Bytes :=
  match p.filename with
  | none => p.lead ++ parameter (ascii "name") p.name
  | some f =>
    if p.filenameFirst then
      p.lead ++ parameter (ascii "filename") f ++ ascii "; " ++ parameter (ascii "name") p.name
    else p.lead ++ parameter (ascii "name") p.name ++ ascii "; " ++ parameter (ascii "filename") f

def Part.lines (p : Part) : List Bytes := p.before ++ p.dispositionLine :: p.after

/-- A part and the delimiter that ends it. -/
def Part.bytes (delim : Bytes) (p : Part) : Bytes :=
  crlf ++ (joinLines p.lines ++ (crlfcrlf ++ (p.content ++ (crlf ++ delim))))

/-- A body with its boundary. -/
structure Multipart where
  boundary : Bytes
  quoted : Bool
  preamble : Bytes
  parts : List Part
  epilogue : Bytes
  boundaryOk : Quotable boundary
  unquotedOk : quoted = false → Http.isToken boundary = true
  preambleOk : preamble = [] ∨ ∃ text, preamble = text ++ crlf
  preambleFree : ¬ dashes ++ boundary <:+: preamble
  contentsFree : ∀ p ∈ parts, ¬ crlf ++ (dashes ++ boundary) <:+: p.content
  few : parts.length ≤ maxParts

def Multipart.delim (m : Multipart) : Bytes := dashes ++ m.boundary

def Multipart.body (m : Multipart) : Bytes :=
  m.preamble ++ (m.delim ++ (m.parts.flatMap (Part.bytes m.delim) ++ (dashes ++ m.epilogue)))

/-- What stands behind `boundary=`. -/
def Multipart.boundaryText (m : Multipart) : Bytes :=
  if m.quoted then dquote :: (m.boundary ++ [dquote]) else m.boundary

def Multipart.contentType (m : Multipart) : Bytes :=
  ascii "multipart/form-data; boundary=" ++ m.boundaryText

/-! ## The header lines of a part -/

theorem getlines_line {sep : UInt8} {x : Bytes} (h : sep ∉ x) (rest : Bytes) :
    getlines sep (x ++ sep :: rest) = x :: getlines sep rest := by
  obtain ⟨y, ys, hrest⟩ := List.exists_cons_of_ne_nil (List.splitOn_ne_nil sep rest)
  rw [getlines, getlines, List.splitOn_append_cons_self_of_not_mem h, hrest,
    List.getLast?_cons_cons, List.dropLast_cons_cons]
  split <;> rfl

theorem stripCr_plain {l : Bytes} (h : cr ∉ l) : stripCr l = l :=
  if_neg fun hlast => h (List.mem_of_getLast? hlast)

theorem stripCr_cr (l : Bytes) : stripCr (l ++ [cr]) = l := by
  rw [stripCr, if_pos (by simp), List.dropLast_concat]

theorem getlines_joinLines {lines : List Bytes} (h : ∀ l ∈ lines, PlainLine l) (hne : lines ≠ []) :
    (getlines lf (joinLines lines)).map stripCr = lines := by
  induction lines with
  | nil => exact absurd rfl hne
  | cons l lines ih =>
    rw [List.forall_mem_cons] at h
    obtain ⟨⟨hl, hcr, hlf⟩, hrest⟩ := h
    cases lines with
    | nil =>
      have hlast : (List.splitOn lf l).getLast? ≠ some [] := by
        rw [List.splitOn_eq_singleton hlf]
        simpa using hl
      rw [joinLines, getlines, if_neg hlast, List.splitOn_eq_singleton hlf, List.map_singleton,
        stripCr_plain hcr]
    | cons next lines =>
      have htext : joinLines (l :: next :: lines) =
          (l ++ [cr]) ++ lf :: joinLines (next :: lines) := by
        rw [joinLines, List.append_assoc, List.append_assoc]
        rfl
      have hnot : lf ∉ l ++ [cr] := by
        rw [List.mem_append, not_or]
        exact ⟨hlf, by decide⟩
      rw [htext, getlines_line hnot, List.map_cons, stripCr_cr, ih hrest (List.cons_ne_nil _ _)]

section Extract

variable {key x v y : Bytes}

/-- The value in quotes behind the first occurrence of the key. -/
theorem extract_marked (hkey : dquote ∉ key ++ [equals]) (hx : dquote ∉ x) (hv : dquote ∉ v) :
    extract key (x ++ (key ++ [equals]) ++ dquote :: (v ++ dquote :: y)) = v := by
  have hpat : key ++ [equals, dquote] = (key ++ [equals]) ++ [dquote] := by simp
  rw [extract, hpat, breakOn_marked hkey hx]
  dsimp only
  rw [breakOn_single hv]

/-- A key that does not stand before the first quote stands behind it. -/
theorem extract_behind (hkey : dquote ∉ key ++ [equals]) (hx : dquote ∉ x)
    (hno : ¬ key ++ [equals] <:+ x) : extract key (x ++ dquote :: y) = extract key y := by
  have hpat : key ++ [equals, dquote] = (key ++ [equals]) ++ [dquote] := by simp
  rw [extract, extract, hpat, breakOn_behind_mark hkey hx hno]
  cases breakOn (key ++ [equals] ++ [dquote]) y with
  | none => rfl
  | some r => rfl

/-- Nothing is found behind the last quote. -/
theorem extract_end (hkey : dquote ∉ key ++ [equals]) (hx : dquote ∉ x) :
    extract key (x ++ [dquote]) = [] := by
  by_cases h : key ++ [equals] <:+ x
  · obtain ⟨t, rfl⟩ := h
    have ht : dquote ∉ t := fun hmem => hx (List.mem_append_left _ hmem)
    have hpat : key ++ [equals, dquote] = (key ++ [equals]) ++ [dquote] := by simp
    rw [extract, hpat, breakOn_marked hkey ht]
    rfl
  · rw [extract_behind hkey hx h]
    rfl

end Extract

theorem key_name : dquote ∉ ascii "name" ++ [equals] := by decide

theorem key_filename : dquote ∉ ascii "filename" ++ [equals] := by decide

/-! ## What is found for a part -/

section Part

/-- The two names that the searches give. -/
def Part.found (p : Part) : Bytes × Bytes :=
  match p.filename with
  | none => (p.name, [])
  | some f =>
    if p.filenameFirst then (f, f)
    else (p.name, if ascii "filename=" <:+ p.name then ascii "; filename=" else f)

variable (p : Part)

theorem Part.header_notMem {b : UInt8} (hlow : Http.toLower b = b)
    (hb : b ∉ ascii "content-disposition") : b ∉ p.header := by
  intro hmem
  have hlower : Http.toLower b ∈ Http.lower p.header := List.mem_map_of_mem hmem
  rw [hlow, p.headerOk] at hlower
  exact hb hlower

theorem Part.lead_notMem {b : UInt8} (hlow : Http.toLower b = b)
    (hb : b ∉ ascii "content-disposition" ++ ascii ": form-data; ") : b ∉ p.lead := by
  rw [List.mem_append, not_or] at hb
  rw [Part.lead, List.mem_append, not_or]
  exact ⟨p.header_notMem hlow hb.1, hb.2⟩

theorem Part.quote_lead : dquote ∉ p.lead := p.lead_notMem (by decide) (by decide)

theorem Part.quote_name : dquote ∉ p.name := p.nameOk.1

theorem Part.lead_suffix {w u : Bytes} (hw : w <:+ p.lead ++ u)
    (hlen : w.length ≤ (ascii ": form-data; " ++ u).length) : w <:+ ascii ": form-data; " ++ u := by
  refine List.suffix_of_suffix_length_le hw ?_ hlen
  rw [Part.lead, List.append_assoc]
  exact List.suffix_append p.header _

theorem Part.names_field (h : p.filename = none) :
    extract (ascii "name") p.dispositionLine = p.name ∧
      extract (ascii "filename") p.dispositionLine = [] := by
  have hline : p.dispositionLine =
      p.lead ++ (ascii "name" ++ [equals]) ++ dquote :: (p.name ++ [dquote]) := by
    simp [Part.dispositionLine, h, parameter]
  have hquote : dquote ∉ p.lead ++ (ascii "name" ++ [equals]) := by
    rw [List.mem_append, not_or]
    exact ⟨p.quote_lead, key_name⟩
  rw [hline]
  refine ⟨extract_marked key_name p.quote_lead p.quote_name, ?_⟩
  rw [extract_behind key_filename hquote fun hw =>
    absurd (p.lead_suffix hw (by decide)) (by decide)]
  exact extract_end key_filename p.quote_name

theorem Part.names_nameFirst {f : Bytes} (h : p.filename = some f)
    (hfirst : p.filenameFirst = false) :
    extract (ascii "name") p.dispositionLine = p.name ∧
      extract (ascii "filename") p.dispositionLine =
        if ascii "filename=" <:+ p.name then ascii "; filename=" else f := by
  have hline : p.dispositionLine = p.lead ++ (ascii "name" ++ [equals]) ++ dquote :: (p.name ++
      dquote :: (ascii "; " ++ (ascii "filename" ++ [equals]) ++ dquote :: (f ++ [dquote]))) := by
    simp [Part.dispositionLine, h, hfirst, parameter]
  have hf : dquote ∉ f := (p.filenameOk f h).1
  have hquote : dquote ∉ p.lead ++ (ascii "name" ++ [equals]) := by
    rw [List.mem_append, not_or]
    exact ⟨p.quote_lead, key_name⟩
  rw [hline]
  refine ⟨extract_marked key_name p.quote_lead p.quote_name, ?_⟩
  rw [extract_behind key_filename hquote fun hw =>
    absurd (p.lead_suffix hw (by decide)) (by decide)]
  split
  · rename_i hend
    -- The name takes the place of the parameter.
    obtain ⟨t, ht⟩ := hend
    have htext : p.name ++ dquote :: (ascii "; " ++ (ascii "filename" ++ [equals]) ++
        dquote :: (f ++ [dquote])) = t ++ (ascii "filename" ++ [equals]) ++
          dquote :: (ascii "; filename=" ++ dquote :: (f ++ [dquote])) := by
      rw [← ht]
      rfl
    have hquote : dquote ∉ t := fun hmem => p.quote_name (ht ▸ List.mem_append_left _ hmem)
    rw [htext]
    exact extract_marked key_filename hquote (by decide)
  · rename_i hend
    rw [extract_behind key_filename p.quote_name hend]
    exact extract_marked key_filename (by decide) hf

theorem Part.names_filenameFirst {f : Bytes} (h : p.filename = some f)
    (hfirst : p.filenameFirst = true) :
    extract (ascii "name") p.dispositionLine = f ∧
      extract (ascii "filename") p.dispositionLine = f := by
  have hf : dquote ∉ f := (p.filenameOk f h).1
  have hquote : dquote ∉ p.lead ++ ascii "file" := by
    rw [List.mem_append, not_or]
    exact ⟨p.quote_lead, by decide⟩
  have hname : p.dispositionLine = p.lead ++ ascii "file" ++ (ascii "name" ++ [equals]) ++
      dquote :: (f ++ dquote :: (ascii "; " ++ parameter (ascii "name") p.name)) := by
    simp [Part.dispositionLine, h, hfirst, parameter, ascii]
  have hfilename : p.dispositionLine = p.lead ++ (ascii "filename" ++ [equals]) ++
      dquote :: (f ++ dquote :: (ascii "; " ++ parameter (ascii "name") p.name)) := by
    simp [Part.dispositionLine, h, hfirst, parameter]
  constructor
  · rw [hname]
    exact extract_marked key_name hquote hf
  · rw [hfilename]
    exact extract_marked key_filename p.quote_lead hf

theorem Part.extract_found :
    (extract (ascii "name") p.dispositionLine, extract (ascii "filename") p.dispositionLine) =
      p.found := by
  rw [Part.found]
  cases h : p.filename with
  | none => exact congrArg₂ Prod.mk (p.names_field h).1 (p.names_field h).2
  | some f =>
    cases hfirst : p.filenameFirst with
    | false =>
      have hnames := p.names_nameFirst h hfirst
      exact congrArg₂ Prod.mk hnames.1 hnames.2
    | true =>
      have hnames := p.names_filenameFirst h hfirst
      exact congrArg₂ Prod.mk hnames.1 hnames.2

/-- The line is taken for one with a Content-Disposition. -/
def Part.Announced (p : Part) : Prop := disposition <:+: p.dispositionLine

theorem parameter_notMem {b : UInt8} {key v : Bytes} (hkey : b ∉ key ++ [equals, dquote])
    (hv : b ∉ v) : b ∉ parameter key v := by
  simp only [List.mem_append, List.mem_cons, List.not_mem_nil, not_or] at hkey
  simp only [parameter, List.mem_append, List.mem_cons, List.not_mem_nil, not_or]
  exact ⟨hkey.1, hkey.2.1, hkey.2.2.1, hv, hkey.2.2.1, not_false⟩

theorem Part.line_notMem {b : UInt8} (hb : b = cr ∨ b = lf) (hname : b ∉ p.name)
    (hfile : ∀ f ∈ p.filename, b ∉ f) : b ∉ p.dispositionLine := by
  have hlead : b ∉ p.lead := by
    rcases hb with rfl | rfl <;> exact p.lead_notMem (by decide) (by decide)
  have hsep : b ∉ ascii "; " := by
    rcases hb with rfl | rfl <;> decide
  have hfirst : b ∉ parameter (ascii "name") p.name := by
    refine parameter_notMem ?_ hname
    rcases hb with rfl | rfl <;> decide
  have hsecond : ∀ f ∈ p.filename, b ∉ parameter (ascii "filename") f := by
    refine fun f hf => parameter_notMem ?_ (hfile f hf)
    rcases hb with rfl | rfl <;> decide
  rw [Part.dispositionLine]
  cases hf : p.filename with
  | none => simp [hlead, hfirst]
  | some f =>
    dsimp only
    split <;> simp [hlead, hfirst, hsep, hsecond f hf]

theorem Part.lines_plain : ∀ l ∈ p.lines, PlainLine l := by
  have hline : PlainLine p.dispositionLine := by
    refine ⟨?_, p.line_notMem (Or.inl rfl) p.nameOk.2.1 fun f hf => (p.filenameOk f hf).2.1,
      p.line_notMem (Or.inr rfl) p.nameOk.2.2 fun f hf => (p.filenameOk f hf).2.2⟩
    intro hnil
    rw [Part.dispositionLine] at hnil
    split at hnil
    · simp [parameter] at hnil
    · split at hnil <;> simp [parameter] at hnil
  intro l hl
  rw [Part.lines, List.mem_append, List.mem_cons] at hl
  rcases hl with h | rfl | h
  · exact (p.linesOk l (List.mem_append_left _ h)).1
  · exact hline
  · exact (p.linesOk l (List.mem_append_right _ h)).1

/-- A turn of the loop over the header lines. -/
def takeNames (names : Bytes × Bytes) (line : Bytes) : Bytes × Bytes :=
  if (breakOn disposition line).isSome then
    (extract (ascii "name") line, extract (ascii "filename") line)
  else names

theorem foldl_takeNames {ls : List Bytes} (h : ∀ l ∈ ls, breakOn disposition l = none)
    (names : Bytes × Bytes) : ls.foldl takeNames names = names := by
  induction ls with
  | nil => rfl
  | cons l ls ih =>
    rw [List.forall_mem_cons] at h
    rw [List.foldl_cons, takeNames, h.1, Option.isSome_none, if_neg Bool.false_ne_true, ih h.2]

theorem partNames_eq (raw : Bytes) :
    partNames raw = ((getlines lf raw).map stripCr).foldl takeNames ([], []) := by
  rw [List.foldl_map]
  rfl

theorem Part.partNames_lines :
    partNames (joinLines p.lines) =
      if (breakOn disposition p.dispositionLine).isSome then p.found else ([], []) := by
  have hbefore : ∀ l ∈ p.before, breakOn disposition l = none := fun l hl =>
    (p.linesOk l (List.mem_append_left _ hl)).2
  have hafter : ∀ l ∈ p.after, breakOn disposition l = none := fun l hl =>
    (p.linesOk l (List.mem_append_right _ hl)).2
  have hne : p.lines ≠ [] := by simp [Part.lines]
  rw [partNames_eq, getlines_joinLines p.lines_plain hne, Part.lines, List.foldl_append,
    foldl_takeNames hbefore, List.foldl_cons, foldl_takeNames hafter, takeNames, p.extract_found]

/-- What a part should be stored as: whether as a file, its name and its content.  Without a chosen
file a form has an empty filename. -/
def Part.entry (p : Part) : Bool × Bytes × Bytes :=
  (p.filename.any fun f => !f.isEmpty, p.name, p.content)

def Stored.entry : Stored → Bool × Bytes × Bytes
  | .field name value => (false, name, value)
  | .file name _ content => (true, name, content)

def Part.stored (p : Part) : Option Stored := storePart (partNames (joinLines p.lines)) p.content

/-- The parts that the searches find the names of: the header is written as the parser has it, the
name is not empty, and no parameter is taken for another. -/
structure Part.Plain (p : Part) : Prop where
  announced : (breakOn disposition p.dispositionLine).isSome = true
  name : p.name ≠ []
  file : ∀ f ∈ p.filename,
    if p.filenameFirst then f = p.name else f = [] → ¬ ascii "filename=" <:+ p.name

theorem storePart_entry (names : Bytes × Bytes) (data : Bytes) :
    (storePart names data).map Stored.entry =
      if names.1 = [] then none else some (!names.2.isEmpty, names.1, data) := by
  obtain ⟨name, file⟩ := names
  cases name with
  | nil => rw [storePart, if_pos rfl, if_neg fun h => h.2 rfl, if_neg
    fun h => h rfl, Option.map_none]
  | cons a name =>
    have hname : a :: name ≠ [] := List.cons_ne_nil a name
    cases file with
    | nil =>
      rw [storePart, if_neg hname, if_neg fun h => h.1 rfl, if_pos hname]
      rfl
    | cons b file =>
      rw [storePart, if_neg hname, if_pos ⟨List.cons_ne_nil b file, hname⟩]
      rfl

/-- The names that are found are those of the part when no parameter is taken for another. -/
theorem Part.found_iff :
    (p.found.1 = p.name ∧ (!p.found.2.isEmpty) = p.filename.any fun f => !f.isEmpty) ↔
      ∀ f ∈ p.filename,
        if p.filenameFirst then f = p.name else f = [] → ¬ ascii "filename=" <:+ p.name := by
  rw [Part.found]
  cases p.filename with
  | none => exact iff_of_true ⟨rfl, rfl⟩ nofun
  | some f =>
    simp only [Option.mem_some_iff, forall_eq', Option.any_some]
    cases p.filenameFirst with
    | true => exact ⟨fun h => h.1, fun h => ⟨h, rfl⟩⟩
    | false =>
      simp only [Bool.false_eq_true, if_false, true_and]
      by_cases hend : ascii "filename=" <:+ p.name
      · have hsome : (ascii "; filename=").isEmpty = false := rfl
        rw [if_pos hend, hsome]
        cases f with
        | nil => exact iff_of_false Bool.noConfusion fun h => h rfl hend
        | cons b f => exact iff_of_true rfl nofun
      · rw [if_neg hend]
        exact iff_of_true rfl fun _ => hend

/-- A part is stored under its name exactly when it is plain. -/
theorem Part.stored_iff : p.stored.map Stored.entry = some p.entry ↔ p.Plain := by
  rw [Part.stored, storePart_entry, p.partNames_lines]
  by_cases hsome : (breakOn disposition p.dispositionLine).isSome = true
  · rw [if_pos hsome]
    constructor
    · intro h
      split at h
      · cases h
      · rename_i hname
        rw [Option.some.injEq, Part.entry, Prod.mk.injEq, Prod.mk.injEq] at h
        obtain ⟨hkind, heq, -⟩ := h
        exact ⟨hsome, heq ▸ hname, p.found_iff.mp ⟨heq, hkind⟩⟩
    · rintro ⟨-, hname, hfile⟩
      obtain ⟨heq, hkind⟩ := p.found_iff.mpr hfile
      rw [heq, if_neg hname, hkind]
      rfl
  · rw [if_neg hsome]
    exact iff_of_false nofun fun h => hsome h.announced

end Part

/-! ## The parts of a body -/

section Body

theorem Quotable.delim {boundary : Bytes} (h : Quotable boundary) :
    cr ∉ dashes ++ boundary ∧ lf ∉ dashes ++ boundary := by
  rw [List.mem_append, List.mem_append, not_or, not_or]
  exact ⟨⟨by decide, h.2.1⟩, ⟨by decide, h.2.2⟩⟩

/-- The loop stores the parts one after the other. -/
theorem parseParts_parts {delim : Bytes} (hcr : cr ∉ delim) {ps : List Part} {n : Nat}
    (hn : ps.length ≤ n) (hfree : ∀ p ∈ ps, ¬ crlf ++ delim <:+: p.content) (epilogue : Bytes) :
    parseParts delim n (ps.flatMap (Part.bytes delim) ++ (dashes ++ epilogue)) =
      ps.filterMap Part.stored := by
  induction ps generalizing n with
  | nil =>
    cases n with
    | zero => rfl
    | succ n =>
      have hend : dashes.isPrefixOf (dashes ++ epilogue) = true :=
        List.isPrefixOf_iff_prefix.mpr (List.prefix_append _ _)
      exact if_pos hend
  | cons p ps ih =>
    rw [List.forall_mem_cons] at hfree
    obtain ⟨n, rfl⟩ : ∃ k, n = k + 1 := ⟨n - 1, by
      rw [List.length_cons] at hn
      omega⟩
    have hne : p.lines ≠ [] := by simp [Part.lines]
    have htext : (p :: ps).flatMap (Part.bytes delim) ++ (dashes ++ epilogue) =
        cr :: lf :: (joinLines p.lines ++ (crlfcrlf ++ (p.content ++ (crlf ++ delim ++
          (ps.flatMap (Part.bytes delim) ++ (dashes ++ epilogue)))))) := by
      simp [Part.bytes, crlf, cr, lf]
    have hnew : cr ∉ lf :: delim := by
      rw [List.mem_cons, not_or]
      exact ⟨by decide, hcr⟩
    have hcontent := breakOn_fresh (y := ps.flatMap (Part.bytes delim) ++ (dashes ++ epilogue))
      hnew hfree.1
    have hskip : ∀ s, skip lf (skip cr (cr :: lf :: s)) = s := fun s => rfl
    have hmore : ¬ dashes.isPrefixOf (cr :: lf :: (joinLines p.lines ++ (crlfcrlf ++ (p.content ++
        (crlf ++ delim ++ (ps.flatMap (Part.bytes delim) ++ (dashes ++ epilogue))))))) = true :=
      Bool.false_ne_true
    rw [htext, parseParts, if_neg hmore, hskip, Http.breakOn_joinLines p.lines_plain hne]
    dsimp only
    rw [show crlf ++ delim = cr :: (lf :: delim) from rfl, hcontent]
    dsimp only
    rw [ih (Nat.le_of_succ_le_succ hn) hfree.2, List.filterMap_cons, Part.stored]
    cases storePart (partNames (joinLines p.lines)) p.content with
    | none => rfl
    | some r => rfl

variable (m : Multipart)

theorem Multipart.delim_ne : m.delim ≠ [] := by simp [Multipart.delim, dashes, ascii]

/-- The first delimiter stands behind the preamble. -/
theorem Multipart.breakOn_body : breakOn m.delim m.body =
    some (m.preamble, m.parts.flatMap (Part.bytes m.delim) ++ (dashes ++ m.epilogue)) := by
  rw [Multipart.body]
  rcases m.preambleOk with hnil | ⟨text, htext⟩
  · rw [hnil]
    exact breakOn_of_first m.delim_ne (by rw [List.nil_append, List.nil_append]) fun _ _ _ =>
      Nat.zero_le _
  · have hend : m.preamble = text ++ [cr] ++ [lf] := by rw [htext, List.append_assoc]; rfl
    have hfree := m.preambleFree
    rw [hend] at hfree ⊢
    exact breakOn_stopped m.delim_ne m.boundaryOk.delim.2 hfree

theorem Multipart.parse_unquoted (h : m.quoted = false) :
    parseMultipart m.boundaryText m.body = m.parts.filterMap Part.stored := by
  have hbody := m.breakOn_body
  rw [Multipart.delim] at hbody
  rw [Multipart.boundaryText, h, if_neg Bool.false_ne_true, parseMultipart, hbody]
  exact parseParts_parts m.boundaryOk.delim.1 m.few m.contentsFree m.epilogue

theorem Multipart.parse_quoted (h : ¬ dashes ++ m.boundaryText <:+: m.body) :
    parseMultipart m.boundaryText m.body = [] := by
  rw [parseMultipart, breakOn_none h]

theorem Multipart.parsed_iff (h : m.quoted = false) :
    (parseMultipart m.boundaryText m.body).map Stored.entry = m.parts.map Part.entry ↔
      ∀ p ∈ m.parts, p.Plain := by
  rw [m.parse_unquoted h, List.map_filterMap, List.filterMap_eq_map_iff_forall_eq_some]
  exact forall₂_congr fun p _ => p.stored_iff

theorem Multipart.parsed_quoted_iff (h : ¬ dashes ++ m.boundaryText <:+: m.body) :
    (parseMultipart m.boundaryText m.body).map Stored.entry = m.parts.map Part.entry ↔
      m.parts = [] := by
  rw [m.parse_quoted h, List.map_nil, eq_comm, List.map_eq_nil_iff]

end Body

/-! ## The forms that a request has -/

section Posted

/-- The names and contents of one kind. -/
def ofKind (file : Bool) (entries : List (Bool × Bytes × Bytes)) : List (Bytes × Bytes) :=
  (entries.filter fun e => e.1 = file).map Prod.snd

theorem params_entries (stored : List Stored) :
    stored.filterMap Stored.param? = ofKind false (stored.map Stored.entry) := by
  induction stored with
  | nil => rfl
  | cons r stored ih =>
    cases r with
    | field name value => exact congrArg (List.cons (name, value)) ih
    | file => exact ih

theorem files_entries (stored : List Stored) :
    (stored.filterMap Stored.file?).map (fun f => (f.1, f.2.2)) =
      ofKind true (stored.map Stored.entry) := by
  induction stored with
  | nil => rfl
  | cons r stored ih =>
    cases r with
    | field => exact ih
    | file name orig content => exact congrArg (List.cons (name, content)) ih

variable (m : Multipart)

def Multipart.fields : List (Bytes × Bytes) := ofKind false (m.parts.map Part.entry)

def Multipart.files : List (Bytes × Bytes) := ofKind true (m.parts.map Part.entry)

theorem Multipart.keys_ofKind (h : (m.parts.map Part.name).Nodup) (file : Bool) :
    ((ofKind file (m.parts.map Part.entry)).map Prod.fst).Nodup := by
  have hsub := (List.filter_sublist (p := fun e : Bool × Bytes × Bytes => e.1 = file)
    (l := m.parts.map Part.entry)).map fun e => e.2.1
  rw [List.map_map] at hsub
  rw [ofKind, List.map_map]
  exact h.sublist hsub

/-- The content type of a form names its boundary, and no other kind of form. -/
theorem Multipart.parsePostBody_eq (h : m.quoted = false) :
    parsePostBody m.contentType m.body = posted (parseMultipart m.boundaryText m.body) := by
  have hslash : (47 : UInt8) ∉ ascii "form-data; boundary=" ++ m.boundaryText := by
    have htoken := m.unquotedOk h
    rw [Http.isToken, Bool.and_eq_true, List.all_eq_true] at htoken
    rw [Multipart.boundaryText, h, if_neg Bool.false_ne_true, List.mem_append, not_or]
    exact ⟨by decide, fun hmem => absurd (htoken.2 _ hmem) (by decide)⟩
  have hother : breakOn (ascii "application" ++ [47]) m.contentType = none := by
    have htext : m.contentType =
        ascii "multipart" ++ 47 :: (ascii "form-data; boundary=" ++ m.boundaryText) := rfl
    rw [htext, breakOn_behind_mark (by decide) (by decide) (by decide), breakOn_none,
      Option.map_none]
    rintro ⟨x, y, hxy⟩
    refine hslash ?_
    rw [← hxy]
    simp
  have hurlencoded : breakOn (ascii "application/x-www-form-urlencoded") m.contentType = none := by
    have htext : ascii "application/x-www-form-urlencoded" =
        ascii "application" ++ [47] ++ ascii "x-www-form-urlencoded" := rfl
    refine breakOn_none fun hin => ?_
    refine notInfix_of_breakOn (List.append_ne_nil_of_right_ne_nil _ (List.cons_ne_nil _ _)) hother ?_
    rw [htext] at hin
    exact (List.prefix_append _ _).isInfix.trans hin
  have hcontent : m.contentType =
      [] ++ ascii "multipart/form-data" ++ (ascii "; boundary=" ++ m.boundaryText) := by
    have htext : ascii "multipart/form-data; boundary=" =
        ascii "multipart/form-data" ++ ascii "; boundary=" := rfl
    rw [Multipart.contentType, htext, List.nil_append, List.append_assoc]
  have hmultipart : breakOn (ascii "multipart/form-data") m.contentType =
      some ([], ascii "; boundary=" ++ m.boundaryText) :=
    breakOn_of_first (by decide) hcontent fun _ _ _ => Nat.zero_le _
  have hboundary : breakOn (ascii "boundary=") m.contentType =
      some (ascii "multipart/form-data; ", m.boundaryText) := by
    have htext : ascii "multipart/form-data; boundary=" =
        ascii "multipart/form-data; " ++ 98 :: ascii "oundary=" := rfl
    have hmark : ascii "boundary=" = 98 :: ascii "oundary=" := rfl
    rw [Multipart.contentType, htext, hmark, List.append_assoc]
    exact breakOn_behind (by decide)
  rw [parsePostBody, hurlencoded, hmultipart, hboundary]
  rfl

theorem Multipart.posted_eq (h : m.quoted = false) (hplain : ∀ p ∈ m.parts, p.Plain)
    (hnames : (m.parts.map Part.name).Nodup) :
    (parsePostBody m.contentType m.body).params = m.fields ∧
      (parsePostBody m.contentType m.body).files.map (fun f => (f.1, f.2.2)) = m.files := by
  have hparsed := (m.parsed_iff h).mpr hplain
  have hparams := params_entries (parseMultipart m.boundaryText m.body)
  have hfiles := files_entries (parseMultipart m.boundaryText m.body)
  rw [hparsed] at hparams hfiles
  have hfileKeys : (((parseMultipart m.boundaryText m.body).filterMap Stored.file?).map
      Prod.fst).Nodup := by
    have hkeys := m.keys_ofKind hnames true
    rw [← hfiles, List.map_map] at hkeys
    exact hkeys
  rw [m.parsePostBody_eq h, posted]
  constructor
  · rw [hparams, AssocList.upsertAll_of_nodup (m.keys_ofKind hnames false)]
    rfl
  · rw [AssocList.upsertAll_of_nodup hfileKeys, hfiles]
    rfl

end Posted

/-! ## What the two decoders make of forms -/

/-- An urlencoded form is read back, and a text has every `%` that is not an escape left alone when
`stoi` reads nothing else in it.  A multipart body with an unquoted boundary is read back when its
parts are plain; with a quoted one nothing is found. -/
theorem forms_decoded (fs : List EncodedField) (plusIsSpace : Bool) (s : Bytes) (m : Multipart) :
    ((fs.map EncodedField.name).Nodup → parseQuery (encodedForm fs) = fs.map EncodedField.field) ∧
    (urlDecode plusIsSpace s = strictDecode plusIsSpace s ↔ Clean s) ∧
    (m.quoted = false →
      ((parseMultipart m.boundaryText m.body).map Stored.entry = m.parts.map Part.entry ↔
        ∀ p ∈ m.parts, p.Plain)) ∧
    (m.quoted = true → ¬ dashes ++ m.boundaryText <:+: m.body →
      ((parseMultipart m.boundaryText m.body).map Stored.entry = m.parts.map Part.entry ↔
        m.parts = [])) ∧
    (m.quoted = false → (∀ p ∈ m.parts, p.Plain) → (m.parts.map Part.name).Nodup →
      (parsePostBody m.contentType m.body).params = m.fields ∧
        (parsePostBody m.contentType m.body).files.map (fun f => (f.1, f.2.2)) = m.files) :=
  ⟨parseQuery_encodedForm, urlDecode_eq_iff plusIsSpace s, m.parsed_iff,
    fun _ h => m.parsed_quoted_iff h, m.posted_eq⟩

/-- A file with the name `f` and the filename `a`. -/
def upload (filenameFirst : Bool) : Part where
  header := ascii "Content-Disposition"
  name := ascii "f"
  filename := some (ascii "a")
  filenameFirst := filenameFirst
  before := []
  after := []
  content := ascii "x"
  headerOk := by decide
  nameOk := ⟨by decide, by decide, by decide⟩
  filenameOk := by
    rintro f ⟨⟩
    exact ⟨by decide, by decide, by decide⟩
  linesOk := nofun

def uploadForm (quoted filenameFirst : Bool) : Multipart where
  boundary := ascii "b"
  quoted := quoted
  preamble := []
  parts := [upload filenameFirst]
  epilogue := []
  boundaryOk := ⟨by decide, by decide, by decide⟩
  unquotedOk := fun _ => by decide
  preambleOk := Or.inl rfl
  preambleFree := by decide
  contentsFree := by
    intro p hp
    rw [List.mem_singleton.mp hp]
    exact (by decide : ¬ crlf ++ (dashes ++ ascii "b") <:+: ascii "x")
  few := (by decide : 1 ≤ maxParts)

/-- A single digit is decoded, the filename is taken for the name, and a quoted boundary is not
found. -/
theorem forms_misread :
    urlDecode true (ascii "%4z") = [4] ∧
      (parseMultipart (uploadForm false true).boundaryText (uploadForm false true).body).map
        Stored.entry = [(true, ascii "a", ascii "x")] ∧
      (parseMultipart (uploadForm true false).boundaryText (uploadForm true false).body).map
        Stored.entry = [] ∧
      (uploadForm false true).parts.map Part.entry = [(true, ascii "f", ascii "x")] := by
  decide +kernel

theorem forms_decoded_upload :
    (parsePostBody (uploadForm false false).contentType (uploadForm false false).body).files.map
      (fun f => (f.1, f.2.2)) = [(ascii "f", ascii "x")] := by
  have hplain : ∀ p ∈ (uploadForm false false).parts, p.Plain := by
    intro p hp
    rw [List.mem_singleton.mp hp]
    refine ⟨by decide +kernel, by decide, ?_⟩
    rintro f ⟨⟩
    decide
  exact ((forms_decoded [] false [] (uploadForm false false)).2.2.2.2 rfl hplain (by decide)).2

end Form

end Look
