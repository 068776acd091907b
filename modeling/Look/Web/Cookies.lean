/-
Cookies: `cookie::set`, `parse_cookies`, `cookie::get` and `cookie::has`.

`cookie::set` encodes the name and the value, so that neither can be taken for a part of the
header.  `cookie::get` decodes the value and looks for the name as the caller writes it, while the
browser sends it back encoded: `cookie_round_trip` says that a cookie is found again if and only if
there was nothing to encode in its name.
-/
import Mathlib.Algebra.Group.Int.Defs
import Mathlib.Algebra.Group.Nat.Defs
import Look.Web.Routes

namespace Look

namespace Cookie

open Http (Bytes sp isBlank trim lf cr)
open Route (hexValue)

def percent : UInt8 := 37
def semicolon : UInt8 := 59
def equals : UInt8 := 61

/-! ## Names and values -/

/-- A byte that `cookie_enc` leaves alone: a letter, a digit, `-`, `_`, `.` or `~`. -/
def isSafe (c : UInt8) : Bool :=
  65 ≤ c && c ≤ 90 || 97 ≤ c && c ≤ 122 || 48 ≤ c && c ≤ 57 || c = 45 || c = 95 || c = 46 || c = 126

/-- `hex[n]`. -/
def hexDigit (n : UInt8) : UInt8 := if n < 10 then 48 + n else 55 + n

def encByte (c : UInt8) : Bytes :=
  if isSafe c then [c] else [percent, hexDigit (c >>> 4), hexDigit (c &&& 15)]

/-- `cookie_enc`. -/
def cookieEnc (s : Bytes) : Bytes := s.flatMap encByte

/-- `hexval` of two digits, put together. -/
def hexPair (h l : UInt8) : Option UInt8 :=
  (hexValue h).bind fun h => (hexValue l).map fun l => h <<< 4 ||| l

/-- `cookie_dec`. -/
def cookieDec : Bytes → Bytes
  | b :: h :: l :: rest =>
    match if b = percent then hexPair h l else none with
    | some c => c :: cookieDec rest
    | none => b :: cookieDec (h :: l :: rest)
  | short => short

/-! ## `cookie::set` -/

/-- A further argument of `cookie::set`: the elements of an array, as texts and as conditions, an
integer, a string, or something else. -/
inductive Extra where
  | array (elements : List (Bytes × Bool))
  | int (n : Int64)
  | string (s : Bytes)
  | other

structure Options where
  expires : Int
  path : Bytes
  httponly : Bool
  secure : Bool
  samesite : Bytes

def Options.default : Options := ⟨0, ascii "/", true, false, ascii "Lax"⟩

/-- The loop over the keys and values of an array. -/
def Options.assoc (o : Options) : List (Bytes × Bool) → Options
  | (key, _) :: (text, truthy) :: rest =>
    let o :=
      if key = ascii "httponly" then { o with httponly := truthy }
      else if key = ascii "secure" then { o with secure := truthy }
      else if key = ascii "samesite" then { o with samesite := text }
      else o
    o.assoc rest
  | _ => o

def Options.extra (o : Options) : Extra → Options
  | .array elements =>
    o.assoc (if elements.head?.map Prod.fst = some (ascii "__assoc__") then elements.tail
      else elements)
  | .int n => { o with expires := n.toInt.bmod (2 ^ 32) }
  | .string s => { o with path := s }
  | .other => o

/-- `sanitize_header`. -/
def sanitizeHeader (s : Bytes) : Bytes :=
  (s.takeWhile fun c => c ≠ cr ∧ c ≠ lf).filter fun c => c ≠ cr ∧ c ≠ lf ∧ c ≠ 0

/-- A call of `cookie::set`; the arguments are converted to texts. -/
structure SetCall where
  name : Bytes
  value : Bytes
  extra : List Extra

variable (httpDate : Int → Bytes) (now : Int)

/-- What follows the value in the line, up to the first attribute's name; `httpDate` is
`strftime` of a time. -/
def attributes (extra : List Extra) : Bytes :=
  let o := extra.foldl Options.extra .default
  ascii " Path=" ++ sanitizeHeader o.path ++
    (if 0 < o.expires then ascii "; Expires=" ++ httpDate (now + o.expires) else []) ++
    (if o.httponly then ascii "; HttpOnly" else []) ++
    (if o.secure then ascii "; Secure" else []) ++
    if o.samesite ≠ [] ∧ o.samesite ≠ ascii "false" ∧ o.samesite ≠ ascii "0" then
      ascii "; SameSite=" ++ sanitizeHeader o.samesite
    else []

/-- `cookie::set`: the line that goes into `set_cookies_out`. -/
def setCookie (c : SetCall) : Bytes :=
  cookieEnc c.name ++ equals :: cookieEnc c.value ++ semicolon :: attributes httpDate now c.extra

/-! ## The browser -/

/-- How a browser takes a `Set-Cookie` line apart: name, value and attributes. -/
def readSetCookie (line : Bytes) : Option ((Bytes × Bytes) × List Bytes) :=
  match line.splitOn semicolon with
  | [] => none
  | pair :: attrs => (breakOn [equals] pair).map fun (n, v) => ((trim n, trim v), attrs)

/-- The pair that the browser sends back for a line. -/
def sentBack (line : Bytes) : Bytes :=
  match readSetCookie line with
  | some ((n, v), _) => n ++ equals :: v
  | none => []

/-- The pairs joined by `; `. -/
def joinPairs : List Bytes → Bytes
  | [] => []
  | p :: ps => p ++ ps.flatMap fun q => semicolon :: sp :: q

/-! ## `parse_cookies` -/

/-- A turn of the loop in `parse_cookies`. -/
def parseItem (item : Bytes) : Option (Bytes × Bytes) := breakOn [equals] (item.dropWhile isBlank)

/-- `WebContext::parse_cookies`. -/
def parseCookies (raw : Bytes) : List (Bytes × Bytes) :=
  AssocList.upsertAll ((raw.splitOn semicolon).filterMap parseItem)

/-- `cookie::get`. -/
def cookieGet (cookiesIn : List (Bytes × Bytes)) (name : Bytes) (default : Option Bytes) :
    Option Bytes :=
  match AssocList.lookup name cookiesIn with
  | some v => some (cookieDec v)
  | none => default

/-- `cookie::has`. -/
def cookieHas (cookiesIn : List (Bytes × Bytes)) (name : Bytes) : Bool :=
  (AssocList.lookup name cookiesIn).isSome

/-! ## What is encoded -/

/-- The two digits of a byte stand for it, and are not encoded themselves. -/
theorem hexDigit_pair : ∀ c : UInt8,
    hexPair (hexDigit (c >>> 4)) (hexDigit (c &&& 15)) = some c ∧
      isSafe (hexDigit (c >>> 4)) = true ∧ isSafe (hexDigit (c &&& 15)) = true :=
  forall_byte (by decide +kernel)

theorem ne_percent_of_safe {c : UInt8} (h : isSafe c = true) : c ≠ percent := by
  rintro rfl
  exact absurd h (by decide)

theorem cookieEnc_cons (c : UInt8) (s : Bytes) : cookieEnc (c :: s) = encByte c ++ cookieEnc s := by
  rw [cookieEnc, List.flatMap_cons]
  rfl

theorem cookieDec_plain {b : UInt8} (h : b ≠ percent) (s : Bytes) :
    cookieDec (b :: s) = b :: cookieDec s := by
  match s with
  | [] => rfl
  | [_] => rfl
  | _ :: _ :: _ => rw [cookieDec, if_neg h]

theorem cookieDec_encByte (c : UInt8) (s : Bytes) :
    cookieDec (encByte c ++ s) = c :: cookieDec s := by
  rw [encByte]
  split
  · rename_i hsafe
    exact cookieDec_plain (ne_percent_of_safe hsafe) s
  · rw [List.cons_append, List.cons_append, List.cons_append, List.nil_append, cookieDec,
      if_pos rfl, (hexDigit_pair c).1]

theorem cookieDec_cookieEnc (s : Bytes) : cookieDec (cookieEnc s) = s := by
  induction s with
  | nil => rfl
  | cons c s ih => rw [cookieEnc_cons, cookieDec_encByte, ih]

theorem cookieEnc_injective {s t : Bytes} (h : cookieEnc s = cookieEnc t) : s = t := by
  rw [← cookieDec_cookieEnc s, h, cookieDec_cookieEnc]

theorem encoded_byte {s : Bytes} {b : UInt8} (h : b ∈ cookieEnc s) :
    isSafe b = true ∨ b = percent := by
  obtain ⟨c, _, hb⟩ := List.mem_flatMap.mp h
  rw [encByte] at hb
  split at hb
  · rename_i hsafe
    rw [List.mem_singleton.mp hb]
    exact Or.inl hsafe
  · obtain ⟨hhigh, hlow⟩ := (hexDigit_pair c).2
    simp only [List.mem_cons, List.not_mem_nil, or_false] at hb
    rcases hb with rfl | rfl | rfl
    · exact Or.inr rfl
    · exact Or.inl hhigh
    · exact Or.inl hlow

/-- A byte that has a meaning in a header is not among the encoded ones. -/
theorem notMem_cookieEnc {b : UInt8} (hsafe : isSafe b = false) (hb : b ≠ percent) (s : Bytes) :
    b ∉ cookieEnc s := by
  intro hmem
  rcases encoded_byte hmem with h | h
  · rw [hsafe] at h
    cases h
  · exact hb h

theorem semicolon_notMem (s : Bytes) : semicolon ∉ cookieEnc s :=
  notMem_cookieEnc (by decide) (by decide) s

theorem equals_notMem (s : Bytes) : equals ∉ cookieEnc s :=
  notMem_cookieEnc (by decide) (by decide) s

theorem notBlank_cookieEnc {s : Bytes} {b : UInt8} (h : b ∈ cookieEnc s) : isBlank b = false := by
  cases hb : isBlank b with
  | false => rfl
  | true =>
    have hval : b = sp ∨ b = Http.tab := by simpa [isBlank] using hb
    rcases hval with rfl | rfl
    · exact absurd h (notMem_cookieEnc (by decide) (by decide) s)
    · exact absurd h (notMem_cookieEnc (by decide) (by decide) s)

theorem cookieEnc_safe {s : Bytes} (h : ∀ b ∈ s, isSafe b = true) : cookieEnc s = s := by
  induction s with
  | nil => rfl
  | cons c s ih =>
    rw [List.forall_mem_cons] at h
    rw [cookieEnc_cons, encByte, if_pos h.1, ih h.2, List.singleton_append]

theorem length_le_cookieEnc (s : Bytes) : s.length ≤ (cookieEnc s).length := by
  induction s with
  | nil => exact Nat.le_refl 0
  | cons c s ih =>
    have hbyte : 1 ≤ (encByte c).length := by
      rw [encByte]
      split <;> simp
    rw [cookieEnc_cons, List.length_append, List.length_cons]
    omega

theorem length_lt_cookieEnc {s : Bytes} {b : UInt8} (hmem : b ∈ s) (hb : isSafe b = false) :
    s.length < (cookieEnc s).length := by
  obtain ⟨x, y, rfl⟩ := List.append_of_mem hmem
  have hx := length_le_cookieEnc x
  have hy := length_le_cookieEnc y
  have hbyte : (encByte b).length = 3 := by
    rw [encByte, hb, if_neg Bool.false_ne_true]
    rfl
  have henc : cookieEnc (x ++ b :: y) = cookieEnc x ++ (encByte b ++ cookieEnc y) := by
    rw [cookieEnc, List.flatMap_append]
    exact congrArg _ (cookieEnc_cons b y)
  rw [henc, List.length_append, List.length_append, List.length_append, List.length_cons, hbyte]
  omega

/-! ## What the browser sends and the server reads -/

theorem trim_cookieEnc (s : Bytes) : trim (cookieEnc s) = cookieEnc s :=
  Http.trim_of_notBlank fun _ hb => notBlank_cookieEnc hb

/-- The pair as it stands in the headers. -/
def pair (c : SetCall) : Bytes × Bytes := (cookieEnc c.name, cookieEnc c.value)

def pairText (c : SetCall) : Bytes := cookieEnc c.name ++ equals :: cookieEnc c.value

theorem semicolon_notMem_pairText (c : SetCall) : semicolon ∉ pairText c := by
  rw [pairText, List.mem_append, List.mem_cons, not_or, not_or]
  exact ⟨semicolon_notMem c.name, by decide, semicolon_notMem c.value⟩

theorem breakOn_pairText (c : SetCall) : breakOn [equals] (pairText c) = some (pair c) :=
  breakOn_single (equals_notMem c.name)

theorem readSetCookie_setCookie (c : SetCall) :
    readSetCookie (setCookie httpDate now c) =
      some (pair c, (attributes httpDate now c.extra).splitOn semicolon) := by
  have hline : setCookie httpDate now c =
      pairText c ++ semicolon :: attributes httpDate now c.extra := by
    rw [setCookie, pairText, List.append_assoc, List.cons_append]
  rw [readSetCookie, hline,
    List.splitOn_append_cons_self_of_not_mem (semicolon_notMem_pairText c)]
  change (breakOn [equals] (pairText c)).map _ = _
  rw [breakOn_pairText, Option.map_some]
  change some ((trim (cookieEnc c.name), trim (cookieEnc c.value)), _) = _
  rw [trim_cookieEnc, trim_cookieEnc]
  rfl

theorem sentBack_setCookie (c : SetCall) : sentBack (setCookie httpDate now c) = pairText c := by
  rw [sentBack, readSetCookie_setCookie]
  rfl

theorem parseItem_pairText (c : SetCall) : parseItem (pairText c) = some (pair c) := by
  have hblank : (pairText c).dropWhile isBlank = pairText c := by
    rw [pairText]
    cases henc : cookieEnc c.name with
    | nil => rfl
    | cons b s =>
      have hb : isBlank b = false :=
        notBlank_cookieEnc (s := c.name) (by rw [henc]; exact List.mem_cons_self)
      rw [List.cons_append, List.dropWhile_cons, hb, if_neg Bool.false_ne_true]
  rw [parseItem, hblank, breakOn_pairText]

theorem parseItem_sp (item : Bytes) : parseItem (sp :: item) = parseItem item := by
  rw [parseItem, List.dropWhile_cons, if_pos (show isBlank sp = true by decide), parseItem]

/-- The header with the cookies that a list of calls has set. -/
def cookieHeader (calls : List SetCall) : Bytes :=
  joinPairs (calls.map fun c => sentBack (setCookie httpDate now c))

theorem parseCookies_header (calls : List SetCall) :
    parseCookies (cookieHeader httpDate now calls) = AssocList.upsertAll (calls.map pair) := by
  rw [cookieHeader, List.map_congr_left fun c _ => sentBack_setCookie httpDate now c, parseCookies]
  congr 1
  cases calls with
  | nil => rfl
  | cons c calls =>
    have hpieces : joinPairs ((c :: calls).map pairText) =
        pairText c ++ (calls.map fun d => sp :: pairText d).flatMap (semicolon :: ·) := by
      rw [List.map_cons, joinPairs, List.flatMap_map, List.flatMap_map]
    have hbehind : ∀ p ∈ calls.map (fun d => sp :: pairText d), semicolon ∉ p := by
      intro p hp
      obtain ⟨d, _, rfl⟩ := List.mem_map.mp hp
      rw [List.mem_cons, not_or]
      exact ⟨by decide, semicolon_notMem_pairText d⟩
    rw [hpieces, splitOn_pieces (semicolon_notMem_pairText c) hbehind,
      List.filterMap_cons_some (parseItem_pairText c), List.filterMap_map, List.map_cons]
    congr 1
    rw [← List.filterMap_eq_map]
    refine List.filterMap_congr fun d _ => ?_
    change parseItem (sp :: pairText d) = some (pair d)
    rw [parseItem_sp, parseItem_pairText]

/-! ## Which cookies are found -/

/-- The value that a list of calls has set last for a name. -/
def lastValue (calls : List SetCall) (name : Bytes) : Option Bytes :=
  AssocList.lookup name (calls.map fun c => (c.name, c.value)).reverse

theorem lookup_map_inj {α β : Type} [DecidableEq α] {f : α → α} {g : β → β}
    (hf : ∀ {x y}, f x = f y → x = y) (k : α) (ps : List (α × β)) :
    AssocList.lookup (f k) (ps.map fun p => (f p.1, g p.2)) = (AssocList.lookup k ps).map g := by
  induction ps with
  | nil => rfl
  | cons p ps ih =>
    rw [List.map_cons, AssocList.lookup, AssocList.lookup]
    by_cases hk : p.1 = k
    · rw [if_pos hk, if_pos (congrArg f hk)]
      rfl
    · rw [if_neg hk, if_neg fun h => hk (hf h), ih]

theorem lookup_header (calls : List SetCall) (name : Bytes) :
    AssocList.lookup (cookieEnc name) (parseCookies (cookieHeader httpDate now calls)) =
      (lastValue calls name).map cookieEnc := by
  have hpairs : (calls.map pair).reverse =
      (calls.map fun c => (c.name, c.value)).reverse.map
        fun p => (cookieEnc p.1, cookieEnc p.2) := by
    rw [← List.map_reverse, ← List.map_reverse, List.map_map]
    rfl
  rw [parseCookies_header, AssocList.lookup_upsertAll, hpairs, lookup_map_inj cookieEnc_injective]
  rfl

theorem lastValue_isSome {calls : List SetCall} {c : SetCall} (h : c ∈ calls) :
    (lastValue calls c.name).isSome = true := by
  refine AssocList.isSome_lookup ?_
  rw [List.map_reverse, List.mem_reverse, List.map_map]
  exact List.mem_map.mpr ⟨c, h, rfl⟩

/-- `cookie::get` gives the last value of a name, and `cookie::has` is true. -/
def Found (calls : List SetCall) (name : Bytes) : Prop :=
  cookieGet (parseCookies (cookieHeader httpDate now calls)) name none = lastValue calls name ∧
    cookieHas (parseCookies (cookieHeader httpDate now calls)) name = true

theorem found_of_safe {calls : List SetCall} {c : SetCall} (hc : c ∈ calls)
    (hsafe : ∀ b ∈ c.name, isSafe b = true) : Found httpDate now calls c.name := by
  have hlookup := lookup_header httpDate now calls c.name
  rw [cookieEnc_safe hsafe] at hlookup
  obtain ⟨v, hv⟩ := Option.isSome_iff_exists.mp (lastValue_isSome hc)
  rw [hv, Option.map_some] at hlookup
  constructor
  · rw [cookieGet, hlookup, hv]
    exact congrArg some (cookieDec_cookieEnc v)
  · rw [cookieHas, hlookup]
    rfl

theorem encoded_of_found {calls : List SetCall} {name : Bytes}
    (h : Found httpDate now calls name) : ∃ d ∈ calls, cookieEnc d.name = name := by
  obtain ⟨v, hv⟩ := Option.isSome_iff_exists.mp h.2
  rw [parseCookies_header, AssocList.lookup_upsertAll] at hv
  have hmem := AssocList.mem_of_lookup hv
  rw [List.mem_reverse] at hmem
  obtain ⟨d, hd, hpair⟩ := List.mem_map.mp hmem
  exact ⟨d, hd, congrArg Prod.fst hpair⟩

/-- A name with a byte to encode is found only if it is the encoding of a shorter such name, and
for the shortest of them there is none. -/
theorem safe_of_found {calls : List SetCall}
    (h : ∀ c ∈ calls, Found httpDate now calls c.name) (n : Nat) :
    ∀ c ∈ calls, c.name.length = n → ∀ b ∈ c.name, isSafe b = true := by
  induction n using Nat.strongRecOn with
  | ind n ih =>
    intro c hc hlen b hb
    obtain ⟨d, hd, henc⟩ := encoded_of_found httpDate now (h c hc)
    by_contra hunsafe
    by_cases hsafe : ∀ b ∈ d.name, isSafe b = true
    · rw [cookieEnc_safe hsafe] at henc
      exact hunsafe (hsafe b (henc ▸ hb))
    · push Not at hsafe
      obtain ⟨x, hx, hxu⟩ := hsafe
      have hlt := length_lt_cookieEnc hx (Bool.eq_false_iff.mpr hxu)
      rw [henc, hlen] at hlt
      exact hxu (ih d.name.length hlt d hd rfl x hx)

/-- Every call makes one cookie with its own attributes, whatever the name and the value are; the
cookies that come back are those set, under the encoded names.  `cookie::get` and `cookie::has`
find all of them if and only if no name has a byte that is encoded. -/
theorem cookie_round_trip (calls : List SetCall) :
    (∀ c ∈ calls, readSetCookie (setCookie httpDate now c) =
      some (pair c, (attributes httpDate now c.extra).splitOn semicolon)) ∧
    parseCookies (cookieHeader httpDate now calls) = AssocList.upsertAll (calls.map pair) ∧
    ((∀ c ∈ calls, Found httpDate now calls c.name) ↔
      ∀ c ∈ calls, ∀ b ∈ c.name, isSafe b = true) := by
  refine ⟨fun c _ => readSetCookie_setCookie httpDate now c,
    parseCookies_header httpDate now calls, ?_, ?_⟩
  · exact fun h c hc => safe_of_found httpDate now h _ c hc rfl
  · exact fun h c hc => found_of_safe httpDate now hc (h c hc)

/-- A name with a space is set as `a%20b`, and not found again. -/
theorem cookie_not_found :
    ¬ ∀ calls : List SetCall, ∀ c ∈ calls, c.name ≠ [] →
      Found (fun _ => []) 0 calls c.name := by
  intro h
  have hfound := h [⟨ascii "a b", ascii "x", []⟩] _ List.mem_cons_self (by decide)
  exact absurd hfound.2 (by decide +kernel)

end Cookie

end Look
