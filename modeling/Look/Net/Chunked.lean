/-
`read_chunked_body`: the decoder of chunked bodies.

The decoder asks for more bytes where it needs them, so the reads come in between
the lines and the chunks.  It yields the body that was encoded or refuses the
request, and two checks depend on where the reads were cut: the limit on a size
line is applied only while the line is not complete, and the limit on the stream
only when a read adds to it.  The verdict is a function of the bytes exactly when
no encoding reaches either limit.

`size_t` is `Nat` in the model; `NoWrap` says that no size or position leaves the
range of 64 bits.
-/
import Mathlib
import Look.Lib.Reach
import Look.Net.HttpParse

namespace Look

namespace Http

/-! ## The decoder -/

def isHex (b : UInt8) : Bool := isDigit b || (97 ≤ b && b ≤ 102) || (65 ≤ b && b ≤ 70)

def hexDigit (b : UInt8) : Nat :=
  if isDigit b then b.toNat - 48 else if 97 ≤ b then b.toNat - 87 else b.toNat - 55

/-- The value of a text of hexadecimal digits. -/
def hex (s : Bytes) : Nat := s.foldl (fun n b => n * 16 + hexDigit b) 0

/-- The state of `read_chunked_body`, and what the next calls of `recv` return; when
nothing is left the peer has closed the connection. -/
structure Reader where
  stream : Bytes
  p : Nat
  out : Bytes
  unread : List Bytes
deriving DecidableEq

/-- `raw_lim`. -/
def rawLimit (cap : Nat) : Nat := cap + 1024 * 1024

/-- `refill`: whether there are more bytes, and the state behind the call of
`recv`. -/
def refill (cap : Nat) (r : Reader) : Bool × Reader :=
  match r.unread with
  | [] => (false, r)
  | bytes :: unread =>
    if rawLimit cap < r.stream.length + bytes.length then (false, { r with unread := unread })
    else (true, { r with stream := r.stream ++ bytes, unread := unread })

/-- The place in the code: at a size line, at the data of a chunk, or at the
trailers. -/
inductive Phase where
  | size
  | data (chunkSize : Nat)
  | trailer
deriving DecidableEq

/-- One turn of a loop. -/
inductive Turn where
  | more (phase : Phase) (r : Reader)
  | done (r : Reader)
  | refused (status : Nat)
deriving DecidableEq

/-- The size line without its extension. -/
def sizeText (line : Bytes) : Bytes :=
  match breakOn [59] line with
  | some (size, _) => size
  | none => line

/-- What a complete size line does. -/
def readSize (cap : Nat) (r : Reader) (line : Bytes) : Turn :=
  let size := sizeText line
  if size.isEmpty || !size.all isHex then .refused 400
  else if 2 ^ 64 ≤ hex size then .refused 400
  else
    let r := { r with p := r.p + line.length + 2 }
    if hex size = 0 then .more .trailer r
    else if cap - r.out.length < hex size then .refused 413
    else .more (.data (hex size)) r

def turn (cap : Nat) : Phase → Reader → Turn
  | .size, r =>
    match breakOn crlf (r.stream.drop r.p) with
    | none =>
      if 64 < r.stream.length - r.p then .refused 400
      else
        match refill cap r with
        | (true, r) => .more .size r
        | (false, _) => .refused 400
    | some (line, _) => readSize cap r line
  | .data n, r =>
    if r.stream.length < r.p + n + 2 then
      match refill cap r with
      | (true, r) => .more (.data n) r
      | (false, _) => .refused 400
    else if (r.stream.drop (r.p + n)).take 2 = crlf then
      .more .size { r with out := r.out ++ (r.stream.drop r.p).take n, p := r.p + n + 2 }
    else .refused 400
  | .trailer, r =>
    match breakOn crlf (r.stream.drop r.p) with
    | none =>
      match refill cap r with
      | (true, r) => .more .trailer r
      | (false, r) => .done r
    | some (line, _) =>
      if line.isEmpty then .done { r with p := r.p + 2 }
      else .more .trailer { r with p := r.p + line.length + 2 }

/-- The bytes that are not read or not decoded, and one for every read: each turn
makes it less. -/
def Reader.weight (r : Reader) : Nat :=
  (r.unread.map fun bytes => bytes.length + 1).sum + (r.stream.length - r.p)

def run (cap : Nat) : Nat → Phase → Reader → Turn
  | 0, phase, r => .more phase r
  | fuel + 1, phase, r =>
    match turn cap phase r with
    | .more phase r => run cap fuel phase r
    | result => result

/-- The bytes behind the head, and nothing decoded. -/
def Reader.start (buf : Bytes) (unread : List Bytes) : Reader := ⟨buf, 0, [], unread⟩

/-- `read_chunked_body`. -/
def readChunkedBody (cap : Nat) (buf : Bytes) (unread : List Bytes) : Turn :=
  run cap ((Reader.start buf unread).weight + 1) .size (.start buf unread)

/-- The body, or nothing when the request is refused. -/
def Turn.body : Turn → Option Bytes
  | .done r => some r.out
  | _ => none

/-! ## Any bytes at all -/

section AnyBytes

variable {cap : Nat} {phase phase' : Phase} {r r' : Reader}

/-- What every turn keeps. -/
structure Sound (cap : Nat) (phase : Phase) (r : Reader) : Prop where
  position : r.p ≤ r.stream.length
  bounded : r.out.length ≤ cap
  chunk : ∀ n, phase = .data n → 0 < n ∧ n ≤ cap - r.out.length

theorem refill_true (h : refill cap r = (true, r')) : ∃ bytes unread,
    r.unread = bytes :: unread ∧ r.stream.length + bytes.length ≤ rawLimit cap ∧
    r' = { r with stream := r.stream ++ bytes, unread := unread } := by
  rw [refill] at h
  split at h
  · cases h
  · rename_i bytes unread hunread
    split at h
    · cases h
    · cases h
      exact ⟨bytes, unread, hunread, by omega, rfl⟩

/-- More bytes in the stream. -/
theorem Sound.refill (h : Sound cap phase r) (hr : refill cap r = (true, r')) :
    Sound cap phase r' ∧ r'.weight < r.weight := by
  have hp := h.position
  obtain ⟨bytes, unread, hunread, -, rfl⟩ := refill_true hr
  refine ⟨⟨?_, h.bounded, h.chunk⟩, ?_⟩
  · simp only [List.length_append]
    omega
  · simp only [Reader.weight, hunread, List.map_cons, List.sum_cons, List.length_append]
    omega

/-- The position moves on inside the stream. -/
theorem weight_lt {p : Nat} {out : Bytes} (hp : r.p < p) (hle : p ≤ r.stream.length) :
    Reader.weight { r with p := p, out := out } < r.weight := by
  simp only [Reader.weight]
  omega

theorem line_le {line rest : Bytes} (h : breakOn crlf (r.stream.drop r.p) = some (line, rest)) :
    r.p + line.length + 2 ≤ r.stream.length := by
  have hlen := congrArg List.length (breakOn_eq h)
  rw [List.length_drop, List.length_append, List.length_append] at hlen
  have hcrlf : crlf.length = 2 := rfl
  omega

/-- Each turn keeps the body within its limit and makes progress. -/
theorem Sound.turn (h : Sound cap phase r) (ht : turn cap phase r = .more phase' r') :
    Sound cap phase' r' ∧ r'.weight < r.weight := by
  have hp := h.position
  cases phase with
  | size =>
    rw [Http.turn] at ht
    split at ht
    · split at ht
      · cases ht
      · split at ht
        · rename_i hr
          cases ht
          exact h.refill hr
        · cases ht
    · rename_i line rest hline
      have hle := line_le hline
      rw [readSize] at ht
      split at ht
      · cases ht
      · split at ht
        · cases ht
        · dsimp only at ht
          split at ht
          · cases ht
            exact ⟨⟨hle, h.bounded, nofun⟩, weight_lt (by omega) hle⟩
          · split at ht
            · cases ht
            · rename_i hzero hcap
              cases ht
              refine ⟨⟨hle, h.bounded, ?_⟩, weight_lt (by omega) hle⟩
              rintro n hn
              cases hn
              exact ⟨by omega, Nat.le_of_not_lt hcap⟩
  | data n =>
    obtain ⟨hn, hcap⟩ := h.chunk n rfl
    have hout := h.bounded
    rw [Http.turn] at ht
    split at ht
    · split at ht
      · rename_i hr
        cases ht
        exact h.refill hr
      · cases ht
    · split at ht
      · cases ht
        have hle : r.p + n + 2 ≤ r.stream.length := by omega
        refine ⟨⟨hle, ?_, nofun⟩, weight_lt (by omega) hle⟩
        rw [List.length_append, List.length_take, List.length_drop]
        omega
      · cases ht
  | trailer =>
    rw [Http.turn] at ht
    split at ht
    · split at ht
      · rename_i hr
        cases ht
        exact h.refill hr
      · cases ht
    · rename_i line rest hline
      have hle := line_le hline
      split at ht
      · cases ht
      · cases ht
        exact ⟨⟨hle, h.bounded, nofun⟩, weight_lt (by omega) hle⟩

/-- The turns that go on. -/
def Turns (cap : Nat) : Phase × Reader → Phase × Reader → Prop :=
  Relation.ReflTransGen fun x y => turn cap x.1 x.2 = .more y.1 y.2

theorem Turns.sound {x y : Phase × Reader} (h : Turns cap x y) (hx : Sound cap x.1 x.2) :
    Sound cap y.1 y.2 ∧ y.2.weight ≤ x.2.weight := by
  induction h with
  | refl => exact ⟨hx, Nat.le_refl _⟩
  | tail _ hlast ih =>
    obtain ⟨hs, hw⟩ := ih.1.turn hlast
    exact ⟨hs, by omega⟩

/-- The state in which nothing was decoded. -/
theorem Sound.start (cap : Nat) (buf : Bytes) (unread : List Bytes) :
    Sound cap .size (.start buf unread) := ⟨Nat.zero_le _, Nat.zero_le _, nofun⟩

/-- Enough fuel reaches the turn that ends the loop. -/
theorem run_of_turns {x y : Phase × Reader} {fuel : Nat} (h : Turns cap x y)
    (hx : Sound cap x.1 x.2) (hfuel : x.2.weight < fuel)
    (hend : ∀ phase r, turn cap y.1 y.2 ≠ .more phase r) :
    run cap fuel x.1 x.2 = turn cap y.1 y.2 := by
  induction h using Relation.ReflTransGen.head_induction_on generalizing fuel with
  | refl =>
    obtain ⟨fuel, rfl⟩ : ∃ k, fuel = k + 1 := ⟨fuel - 1, by omega⟩
    rw [run]
    split
    · rename_i phase r heq
      exact absurd heq (hend phase r)
    · rfl
  | head hfirst _ ih =>
    obtain ⟨hs, hw⟩ := hx.turn hfirst
    obtain ⟨fuel, rfl⟩ : ∃ k, fuel = k + 1 := ⟨fuel - 1, by omega⟩
    rw [run, hfirst]
    exact ih hs (by omega)

/-- Whatever the bytes are, the decoder comes to an end. -/
theorem exists_end {x : Phase × Reader} (hx : Sound cap x.1 x.2) :
    ∃ y, Turns cap x y ∧ ∀ phase r, turn cap y.1 y.2 ≠ .more phase r := by
  induction hw : x.2.weight using Nat.strongRecOn generalizing x with
  | ind w ih =>
    subst hw
    cases ht : turn cap x.1 x.2 with
    | more phase r =>
      obtain ⟨hs, hlt⟩ := hx.turn ht
      obtain ⟨y, hy, hend⟩ := ih _ hlt (x := (phase, r)) hs rfl
      exact ⟨y, .head ht hy, hend⟩
    | done r => exact ⟨x, .refl, by rw [ht]; nofun⟩
    | refused status => exact ⟨x, .refl, by rw [ht]; nofun⟩

/-- The sizes and positions that a turn computes are within 64 bits: the limits,
the size after a read of at most 65536 bytes, what is left of the limit and of the
stream, and the position behind a chunk or a line. -/
structure NoWrap (cap : Nat) (phase : Phase) (r : Reader) : Prop where
  limit : rawLimit cap < 2 ^ 64
  read : r.stream.length + 65536 < 2 ^ 64
  pending : r.p ≤ r.stream.length
  left : r.out.length ≤ cap
  line : ∀ line rest, breakOn crlf (r.stream.drop r.p) = some (line, rest) →
    r.p + line.length + 2 < 2 ^ 64
  chunk : ∀ n, phase = .data n → r.p + n + 2 < 2 ^ 64

/-- A `std::string` is shorter than 2^62, and the limit comes from a positive
`long long`. -/
theorem Sound.noWrap (h : Sound cap phase r) (hcap : cap < 2 ^ 63)
    (hfits : r.stream.length < 2 ^ 62) : NoWrap cap phase r where
  limit := by
    rw [rawLimit]
    omega
  read := by omega
  pending := h.position
  left := h.bounded
  line := by
    intro line rest hline
    have := line_le hline
    omega
  chunk := by
    intro n hn
    have hp := h.position
    obtain ⟨-, hle⟩ := h.chunk n hn
    omega

end AnyBytes

/-! ## Encoded bodies -/

/-- The size of a chunk with its extension. -/
structure SizeLine where
  digits : Bytes
  ext : Bytes
  digits_ne : digits ≠ []
  digits_hex : digits.all isHex = true
  ext_semicolon : ext = [] ∨ ∃ e, ext = 59 :: e
  ext_no_cr : cr ∉ ext

structure Chunk where
  size : SizeLine
  data : Bytes
  data_ne : data ≠ []
  size_eq : hex size.digits = data.length

/-- A chunked body with its trailers. -/
structure Encoding where
  chunks : List Chunk
  last : SizeLine
  last_zero : hex last.digits = 0
  trailers : List Bytes
  trailers_ok : ∀ t ∈ trailers, t ≠ [] ∧ cr ∉ t

namespace SizeLine

def text (l : SizeLine) : Bytes := l.digits ++ l.ext

theorem hex_ne (l : SizeLine) {b : UInt8} (hb : isHex b = false) : b ∉ l.digits := by
  intro hmem
  rw [List.all_eq_true.mp l.digits_hex b hmem] at hb
  cases hb

theorem text_no_cr (l : SizeLine) : cr ∉ l.text := by
  rw [text, List.mem_append]
  rintro (h | h)
  · exact l.hex_ne (by decide) h
  · exact l.ext_no_cr h

theorem sizeText_text (l : SizeLine) : sizeText l.text = l.digits := by
  have hsemi : (59 : UInt8) ∉ l.digits := l.hex_ne (by decide)
  rw [sizeText, text]
  rcases l.ext_semicolon with h | ⟨e, h⟩
  · rw [h, List.append_nil, breakOn_single_none hsemi]
  · rw [h, breakOn_single hsemi]

end SizeLine

def Chunk.bytes (c : Chunk) : Bytes := c.size.text ++ crlf ++ c.data ++ crlf

def trailerBytes (trailers : List Bytes) : Bytes := trailers.flatMap (· ++ crlf) ++ crlf

namespace Encoding

def body (e : Encoding) : Bytes := e.chunks.flatMap Chunk.data

/-- The bytes up to the trailers. -/
def chunkPart (e : Encoding) : Bytes := e.chunks.flatMap Chunk.bytes ++ e.last.text ++ crlf

def bytes (e : Encoding) : Bytes := e.chunkPart ++ trailerBytes e.trailers

/-- The size lines, the last one included. -/
def sizeLines (e : Encoding) : List SizeLine := e.chunks.map Chunk.size ++ [e.last]

end Encoding

/-- A line without a CR is what stands before the first CRLF. -/
theorem breakOn_crlf {line rest : Bytes} (h : cr ∉ line) :
    breakOn crlf (line ++ crlf ++ rest) = some (line, rest) := by
  refine breakOn_of_first (by decide) rfl ?_
  intro x' y' hs
  by_contra hlt
  have hget : (line ++ crlf ++ rest)[x'.length]? = some cr := by
    rw [hs]
    simp [crlf, cr]
  rw [List.append_assoc, List.getElem?_append_left (by omega)] at hget
  exact h (List.mem_of_getElem? hget)

/-- Where the decoder stands in an encoded body: what it has decoded, and what
follows its position. -/
inductive At (e : Encoding) : Phase → Bytes → Bytes → Prop
  | size {before cs : List Chunk} (h : e.chunks = before ++ cs) :
      At e .size (before.flatMap Chunk.data) (cs.flatMap Chunk.bytes ++
        (e.last.text ++ crlf ++ trailerBytes e.trailers))
  | data {before cs : List Chunk} {c : Chunk} (h : e.chunks = before ++ c :: cs) :
      At e (.data c.data.length) (before.flatMap Chunk.data) (c.data ++ crlf ++
        (cs.flatMap Chunk.bytes ++ (e.last.text ++ crlf ++ trailerBytes e.trailers)))
  | trailer {ts : List Bytes} (hts : ∀ t ∈ ts, t ≠ [] ∧ cr ∉ t) :
      At e .trailer e.body (trailerBytes ts)

/-- The decoder reads the encoded body, cut into reads. -/
structure Follows (e : Encoding) (phase : Phase) (r : Reader) : Prop where
  total : r.stream ++ r.unread.flatten = e.bytes
  position : r.p ≤ r.stream.length
  reads : ∀ bytes ∈ r.unread, bytes ≠ [] ∧ bytes.length ≤ 65536
  place : At e phase r.out (e.bytes.drop r.p)

/-- The encoding reaches neither of the two limits: every size line is at most 63
bytes, and either the whole encoding is within the limit of the stream, or a read of
any size that begins before the trailers is. -/
def Encoding.Within (e : Encoding) (cap : Nat) : Prop :=
  (∀ l ∈ e.sizeLines, l.text.length ≤ 63) ∧
  (e.bytes.length ≤ rawLimit cap ∨ e.chunkPart.length + 65535 ≤ rawLimit cap)

section Encoded

variable {e : Encoding} {cap : Nat} {phase : Phase} {r : Reader}

/-- What is available and what is still unread. -/
theorem Follows.available (h : Follows e phase r) :
    r.stream.drop r.p ++ r.unread.flatten = e.bytes.drop r.p := by
  rw [← h.total, List.drop_append_of_le_length h.position]

/-- A line is there, or more reads are. -/
theorem await_line {avail tail line rest : Bytes} (hline : cr ∉ line)
    (h : avail ++ tail = line ++ crlf ++ rest) :
    (∃ y, breakOn crlf avail = some (line, y)) ∨
    (breakOn crlf avail = none ∧ avail.length ≤ line.length + 1 ∧ tail ≠ []) := by
  cases hbreak : breakOn crlf avail with
  | some found =>
    obtain ⟨l, y⟩ := found
    have happ := breakOn_append tail hbreak
    rw [h, breakOn_crlf hline] at happ
    cases happ
    exact Or.inl ⟨y, rfl⟩
  | none =>
    have hshort : avail.length ≤ line.length + 1 := by
      by_contra hlong
      have hpre := eq_append_drop h (by
        rw [List.length_append, show crlf.length = 2 from rfl]
        omega)
      obtain ⟨x', y', hsome⟩ := breakOn_isSome (by decide) hpre
      rw [hbreak] at hsome
      cases hsome
    refine Or.inr ⟨rfl, hshort, ?_⟩
    rintro rfl
    have hlen := congrArg List.length h
    simp only [List.append_nil, List.length_append] at hlen
    have hcrlf : crlf.length = 2 := rfl
    omega

theorem Follows.refill (h : Follows e phase r) {r' : Reader} (hr : refill cap r = (true, r')) :
    Follows e phase r' := by
  have hp := h.position
  have htotal := h.total
  have hreads := h.reads
  obtain ⟨bytes, unread, hunread, -, rfl⟩ := refill_true hr
  rw [hunread, List.flatten_cons] at htotal
  rw [hunread] at hreads
  refine ⟨?_, ?_, fun b hb => hreads b (List.mem_cons_of_mem _ hb), h.place⟩
  · rw [List.append_assoc]
    exact htotal
  · simp only [List.length_append]
    omega

theorem refill_out (cap : Nat) (r : Reader) : (refill cap r).2.out = r.out := by
  rw [Http.refill]
  split
  · rfl
  · split <;> rfl

/-- A read that is refused before the trailers: the encoding reaches the limit of
the stream. -/
theorem Follows.not_within (h : Follows e phase r) (hunread : r.unread ≠ [])
    (hbefore : r.stream.length < e.chunkPart.length) {r' : Reader}
    (hr : Http.refill cap r = (false, r')) : ¬ e.Within cap := by
  have htotal := h.total
  have hreads := h.reads
  rw [Http.refill] at hr
  split at hr
  · rename_i hnil
    exact absurd hnil hunread
  · rename_i bytes unread hcons
    rw [hcons, List.flatten_cons] at htotal
    rw [hcons] at hreads
    split at hr
    · rename_i hlim
      rintro ⟨-, hwithin⟩
      have hlen := congrArg List.length htotal
      have hbytes := (hreads bytes List.mem_cons_self).2
      simp only [List.length_append] at hlen
      omega
    · cases hr

/-- The end of the chunks, measured from the position. -/
theorem Follows.length_lt (h : Follows e phase r) {n : Nat}
    (hn : n + (trailerBytes e.trailers).length < (e.bytes.drop r.p).length)
    (havail : (r.stream.drop r.p).length ≤ n) : r.stream.length < e.chunkPart.length := by
  have hp := h.position
  rw [Encoding.bytes, List.length_drop, List.length_append] at hn
  rw [List.length_drop] at havail
  omega

/-- What a turn makes of an encoded body: it goes on with it, it yields it, or it
refuses it because a read was cut at a limit. -/
inductive Outcome (e : Encoding) (cap : Nat) (r : Reader) : Turn → Prop
  | goes {phase : Phase} {r' : Reader} (h : Follows e phase r')
      (hunread : r.unread = [] → r'.unread = []) : Outcome e cap r (.more phase r')
  | yields {r' : Reader} (h : r'.out = e.body) : Outcome e cap r (.done r')
  | refuses {status : Nat} (hunread : r.unread ≠ []) (h : ¬ e.Within cap) :
      Outcome e cap r (.refused status)

/-- The position moves behind what was decoded. -/
theorem Follows.moved (h : Follows e phase r) {phase' : Phase} {p : Nat} {out : Bytes}
    (hp : p ≤ r.stream.length) (hplace : At e phase' out (e.bytes.drop p)) :
    Follows e phase' { r with p := p, out := out } :=
  ⟨h.total, hp, h.reads, hplace⟩

theorem drop_of_drop_eq {bytes x y : Bytes} {p n : Nat} (h : bytes.drop p = x ++ y)
    (hn : x.length = n) : bytes.drop (p + n) = y := by
  rw [← List.drop_drop, h, List.drop_left' hn]

theorem unread_ne_nil (h : r.unread.flatten ≠ []) : r.unread ≠ [] := by
  intro hnil
  rw [hnil] at h
  exact h rfl

/-- A read while something before the trailers is missing. -/
theorem Follows.outcome_read (h : Follows e phase r) (hunread : r.unread ≠ [])
    (hbefore : r.stream.length < e.chunkPart.length) :
    Outcome e cap r (match Http.refill cap r with
      | (true, r') => .more phase r'
      | (false, _) => .refused 400) := by
  cases hr : Http.refill cap r with
  | mk ok r' =>
    cases ok with
    | true => exact .goes (h.refill hr) fun hnil => absurd hnil hunread
    | false => exact .refuses hunread (h.not_within hunread hbefore hr)

/-- A size line that stands at the position. -/
theorem Follows.outcome_size {l : SizeLine} {rest : Bytes} (h : Follows e .size r)
    (hl : l ∈ e.sizeLines) (hplace : e.bytes.drop r.p = l.text ++ crlf ++ rest)
    (hrest : (trailerBytes e.trailers).length ≤ rest.length)
    (hdone : r.p + l.text.length + 2 ≤ r.stream.length →
      Outcome e cap r (readSize cap r l.text)) :
    Outcome e cap r (turn cap .size r) := by
  have havail := h.available.trans hplace
  have hcrlf : crlf.length = 2 := rfl
  rw [turn]
  rcases await_line l.text_no_cr havail with ⟨y, hbreak⟩ | ⟨hbreak, hshort, htail⟩
  · have hle := line_le hbreak
    rw [hbreak]
    exact hdone hle
  · rw [hbreak]
    dsimp only
    have hunread := unread_ne_nil htail
    split
    · rename_i hlong
      rw [List.length_drop] at hshort
      refine .refuses hunread ?_
      rintro ⟨hlines, -⟩
      have := hlines l hl
      omega
    · refine h.outcome_read hunread (h.length_lt (n := l.text.length + 1) ?_ hshort)
      rw [hplace, List.length_append, List.length_append]
      omega

theorem hex_lt {c : Chunk} {before cs : List Chunk} (hchunks : e.chunks = before ++ c :: cs)
    (hbody : e.body.length ≤ cap) :
    (before.flatMap Chunk.data).length + c.data.length ≤ cap := by
  rw [Encoding.body, hchunks, List.flatMap_append, List.flatMap_cons, List.length_append,
    List.length_append] at hbody
  omega

/-- The decoder at the size line of a chunk. -/
theorem Follows.outcome_chunk {before cs : List Chunk} {c : Chunk}
    (hchunks : e.chunks = before ++ c :: cs) (h : Follows e .size r)
    (hout : r.out = before.flatMap Chunk.data)
    (hplace : e.bytes.drop r.p = (c :: cs).flatMap Chunk.bytes ++
      (e.last.text ++ crlf ++ trailerBytes e.trailers))
    (hbody : e.body.length ≤ cap) (hcap : cap < 2 ^ 63) :
    Outcome e cap r (turn cap .size r) := by
  have hline : e.bytes.drop r.p = c.size.text ++ crlf ++ (c.data ++ crlf ++
      (cs.flatMap Chunk.bytes ++ (e.last.text ++ crlf ++ trailerBytes e.trailers))) := by
    rw [hplace, List.flatMap_cons, Chunk.bytes]
    simp only [List.append_assoc]
  refine h.outcome_size (l := c.size) ?_ hline ?_ ?_
  · rw [Encoding.sizeLines, hchunks]
    simp
  · simp only [List.length_append]
    omega
  · intro hle
    have hdigits : c.size.digits.isEmpty = false := by simpa using c.size.digits_ne
    have hpos : 0 < c.data.length := List.length_pos_iff.mpr c.data_ne
    have hmax := hex_lt hchunks hbody
    rw [readSize, c.size.sizeText_text, hdigits, c.size.digits_hex, c.size_eq]
    dsimp only
    rw [if_neg (by decide), if_neg (by omega), if_neg (by omega),
      if_neg (by rw [hout]; omega)]
    refine .goes (h.moved hle ?_) id
    rw [hout, Nat.add_assoc, drop_of_drop_eq hline (by rw [List.length_append]; rfl)]
    exact .data hchunks

/-- The decoder at the size line that ends the chunks. -/
theorem Follows.outcome_last (h : Follows e .size r) (hout : r.out = e.body)
    (hplace : e.bytes.drop r.p = e.last.text ++ crlf ++ trailerBytes e.trailers) :
    Outcome e cap r (turn cap .size r) := by
  refine h.outcome_size (l := e.last) (by simp [Encoding.sizeLines]) hplace (Nat.le_refl _) ?_
  intro hle
  have hdigits : e.last.digits.isEmpty = false := by simpa using e.last.digits_ne
  rw [readSize, e.last.sizeText_text, hdigits, e.last.digits_hex, e.last_zero]
  refine .goes (h.moved hle ?_) id
  rw [hout, Nat.add_assoc, drop_of_drop_eq hplace (by rw [List.length_append]; rfl)]
  exact .trailer e.trailers_ok

/-- The decoder at the data of a chunk. -/
theorem Follows.outcome_data {before cs : List Chunk} {c : Chunk}
    (hchunks : e.chunks = before ++ c :: cs) (h : Follows e (.data c.data.length) r)
    (hout : r.out = before.flatMap Chunk.data)
    (hplace : e.bytes.drop r.p = c.data ++ crlf ++ (cs.flatMap Chunk.bytes ++
      (e.last.text ++ crlf ++ trailerBytes e.trailers))) :
    Outcome e cap r (turn cap (.data c.data.length) r) := by
  have hp := h.position
  have havail := h.available.trans hplace
  have hcrlf : crlf.length = 2 := rfl
  rw [turn]
  split
  · rename_i hshort
    have htail : r.unread.flatten ≠ [] := by
      intro hnil
      rw [hnil, List.append_nil] at havail
      have hlen := congrArg List.length havail
      rw [List.length_drop, List.length_append, List.length_append] at hlen
      omega
    refine h.outcome_read (unread_ne_nil htail) (h.length_lt (n := c.data.length + 1) ?_ ?_)
    · rw [hplace]
      simp only [List.length_append]
      omega
    · rw [List.length_drop]
      omega
  · rename_i hlong
    have hsplit := eq_append_drop havail (by
      rw [List.length_drop, List.length_append]
      omega)
    have hdata : (r.stream.drop r.p).take c.data.length = c.data := by
      rw [hsplit, List.append_assoc, List.take_left]
    have hend : (r.stream.drop (r.p + c.data.length)).take 2 = crlf := by
      rw [← List.drop_drop, hsplit, List.append_assoc, List.drop_left]
      exact List.take_left' rfl
    rw [if_pos hend, hdata]
    refine .goes (h.moved (by omega) ?_) id
    have hnext : before.flatMap Chunk.data ++ c.data =
        (before ++ [c]).flatMap Chunk.data := by simp
    rw [hout, hnext, Nat.add_assoc, drop_of_drop_eq hplace (by rw [List.length_append]; rfl)]
    exact .size (by rw [hchunks]; simp)

/-- The decoder at the trailers. -/
theorem Follows.outcome_trailer {ts : List Bytes} (hts : ∀ t ∈ ts, t ≠ [] ∧ cr ∉ t)
    (h : Follows e .trailer r) (hout : r.out = e.body)
    (hplace : e.bytes.drop r.p = trailerBytes ts) : Outcome e cap r (turn cap .trailer r) := by
  -- The first line: a trailer, or the empty line at the end.
  obtain ⟨line, rest, hline, hcr, hrest⟩ : ∃ line rest, trailerBytes ts = line ++ crlf ++ rest ∧
      cr ∉ line ∧ (line ≠ [] → ∃ ts', rest = trailerBytes ts' ∧ ∀ t ∈ ts', t ≠ [] ∧ cr ∉ t) := by
    cases ts with
    | nil => exact ⟨[], [], rfl, nofun, fun hne => absurd rfl hne⟩
    | cons t ts =>
      refine ⟨t, trailerBytes ts, ?_, (hts t List.mem_cons_self).2, fun _ => ⟨ts, rfl, ?_⟩⟩
      · simp only [trailerBytes, List.flatMap_cons, List.append_assoc]
      · exact fun t ht => hts t (List.mem_cons_of_mem _ ht)
  rw [hline] at hplace
  rw [turn]
  rcases await_line hcr (h.available.trans hplace) with ⟨y, hbreak⟩ | ⟨hbreak, -, htail⟩
  · have hle := line_le hbreak
    rw [hbreak]
    dsimp only
    split
    · exact .yields hout
    · rename_i hne
      obtain ⟨ts', rfl, hts'⟩ := hrest (by simpa using hne)
      refine .goes (h.moved hle ?_) id
      rw [hout, Nat.add_assoc, drop_of_drop_eq hplace (by rw [List.length_append]; rfl)]
      exact .trailer hts'
  · rw [hbreak]
    dsimp only
    have hkeep := refill_out cap r
    cases hr : Http.refill cap r with
    | mk ok r' =>
      rw [hr] at hkeep
      cases ok with
      | true => exact .goes (h.refill hr) fun hnil => absurd hnil (unread_ne_nil htail)
      | false => exact .yields (hkeep.trans hout)

theorem Follows.outcome (h : Follows e phase r) (hbody : e.body.length ≤ cap)
    (hcap : cap < 2 ^ 63) : Outcome e cap r (turn cap phase r) := by
  have hplace := h.place
  generalize hout : r.out = out at hplace
  generalize hdrop : e.bytes.drop r.p = rest at hplace
  cases hplace with
  | @size before cs hchunks =>
    cases cs with
    | nil =>
      rw [List.append_nil] at hchunks
      exact h.outcome_last (by rw [hout, Encoding.body, hchunks]) hdrop
    | cons c cs => exact h.outcome_chunk hchunks hout hdrop hbody hcap
  | @data before cs c hchunks => exact h.outcome_data hchunks hout hdrop
  | @trailer ts hts => exact h.outcome_trailer hts hout hdrop

end Encoded

/-! ## Whole bodies -/

/-- The bytes are in the buffer already, or come in reads of at most 65536 bytes. -/
structure Cut (bytes buf : Bytes) (unread : List Bytes) : Prop where
  total : buf ++ unread.flatten = bytes
  reads : ∀ read ∈ unread, read ≠ [] ∧ read.length ≤ 65536

section Whole

variable {e : Encoding} {cap : Nat} {buf : Bytes} {unread : List Bytes}

theorem Follows.start (h : Cut e.bytes buf unread) : Follows e .size (.start buf unread) := by
  refine ⟨h.total, Nat.zero_le _, h.reads, ?_⟩
  have hbytes : e.bytes.drop 0 = e.chunks.flatMap Chunk.bytes ++
      (e.last.text ++ crlf ++ trailerBytes e.trailers) := by
    simp only [List.drop_zero, Encoding.bytes, Encoding.chunkPart, List.append_assoc]
  show At e .size [] (e.bytes.drop 0)
  rw [hbytes]
  exact .size (show e.chunks = [] ++ e.chunks from rfl)

theorem Follows.turns {x y : Phase × Reader} (hxy : Turns cap x y) (h : Follows e x.1 x.2)
    (hbody : e.body.length ≤ cap) (hcap : cap < 2 ^ 63) :
    Follows e y.1 y.2 ∧ (x.2.unread = [] → y.2.unread = []) := by
  induction hxy with
  | refl => exact ⟨h, id⟩
  | @tail y z _ hlast ih =>
    obtain ⟨hy, hunread⟩ := ih
    have hout := hy.outcome hbody hcap
    rw [hlast] at hout
    cases hout with
    | goes hz hnil => exact ⟨hz, fun hx => hnil (hunread hx)⟩

/-- The decoder yields the body or refuses it, and it refuses only when a read was
cut at a limit. -/
theorem readChunkedBody_outcome (h : Cut e.bytes buf unread) (hbody : e.body.length ≤ cap)
    (hcap : cap < 2 ^ 63) :
    (readChunkedBody cap buf unread).body = some e.body ∨
    ((∃ status, readChunkedBody cap buf unread = .refused status) ∧ unread ≠ [] ∧
      ¬ e.Within cap) := by
  obtain ⟨y, hturns, hend⟩ := exists_end (x := (.size, Reader.start buf unread))
    (Sound.start cap buf unread)
  have hrun : readChunkedBody cap buf unread = turn cap y.1 y.2 :=
    run_of_turns hturns (Sound.start cap buf unread) (Nat.lt_succ_self _) hend
  obtain ⟨hfollows, hunread⟩ := Follows.turns hturns (Follows.start h) hbody hcap
  have hout := hfollows.outcome hbody hcap
  rw [hrun]
  generalize turn cap y.1 y.2 = last at hout hend
  cases hout with
  | @goes phase r' _ _ => exact absurd rfl (hend phase r')
  | yields h => exact Or.inl (congrArg some h)
  | @refuses status hne hnot =>
    exact Or.inr ⟨⟨status, rfl⟩, fun hnil => hne (hunread hnil), hnot⟩

/-- A chunk that is all in the stream takes two turns. -/
theorem turns_chunk {r : Reader} {c : Chunk} {more : Bytes}
    (hplace : r.stream.drop r.p = c.bytes ++ more) (hmax : r.out.length + c.data.length ≤ cap)
    (hcap : cap < 2 ^ 63) :
    Turns cap (.size, r)
      (.size, { r with p := r.p + c.bytes.length, out := r.out ++ c.data }) := by
  have hcrlf : crlf.length = 2 := rfl
  have hline : r.stream.drop r.p = c.size.text ++ crlf ++ (c.data ++ crlf ++ more) := by
    rw [hplace, Chunk.bytes]
    simp only [List.append_assoc]
  have hdigits : c.size.digits.isEmpty = false := by simpa using c.size.digits_ne
  have hpos : 0 < c.data.length := List.length_pos_iff.mpr c.data_ne
  have hlen := congrArg List.length hline
  simp only [List.length_drop, List.length_append] at hlen
  have hfirst : turn cap .size r =
      .more (.data c.data.length) { r with p := r.p + c.size.text.length + 2 } := by
    rw [turn, hline, breakOn_crlf c.size.text_no_cr]
    dsimp only
    rw [readSize, c.size.sizeText_text, hdigits, c.size.digits_hex, c.size_eq]
    dsimp only
    rw [if_neg (by decide), if_neg (by omega), if_neg (by omega), if_neg (by omega)]
  have hdrop : r.stream.drop (r.p + c.size.text.length + 2) = c.data ++ crlf ++ more := by
    rw [Nat.add_assoc]
    exact drop_of_drop_eq hline (by rw [List.length_append]; rfl)
  have hsecond : turn cap (.data c.data.length)
      { r with p := r.p + c.size.text.length + 2 } =
      .more .size { r with p := r.p + c.bytes.length, out := r.out ++ c.data } := by
    have hdata : (r.stream.drop (r.p + c.size.text.length + 2)).take c.data.length =
        c.data := by
      rw [hdrop, List.append_assoc, List.take_left]
    have hend : (r.stream.drop (r.p + c.size.text.length + 2 + c.data.length)).take 2 =
        crlf := by
      rw [← List.drop_drop, hdrop, List.append_assoc, List.drop_left]
      exact List.take_left' rfl
    have hbytes : c.bytes.length = c.size.text.length + 2 + c.data.length + 2 := by
      simp only [Chunk.bytes, List.length_append]
      omega
    rw [turn]
    dsimp only
    rw [if_neg (by omega), if_pos hend, hdata, hbytes]
    simp only [Nat.add_assoc]
  exact Relation.ReflTransGen.head
    (b := (.data c.data.length, { r with p := r.p + c.size.text.length + 2 })) hfirst
    (.single hsecond)

/-- Chunks that are all in the stream. -/
theorem turns_chunks (cs : List Chunk) {r : Reader} {more : Bytes}
    (hplace : r.stream.drop r.p = cs.flatMap Chunk.bytes ++ more)
    (hmax : r.out.length + (cs.flatMap Chunk.data).length ≤ cap) (hcap : cap < 2 ^ 63) :
    Turns cap (.size, r) (.size, { r with
      p := r.p + (cs.flatMap Chunk.bytes).length, out := r.out ++ cs.flatMap Chunk.data }) := by
  induction cs generalizing r with
  | nil =>
    simp only [List.flatMap_nil, List.append_nil, List.length_nil, Nat.add_zero]
    exact .refl
  | cons c cs ih =>
    rw [List.flatMap_cons, List.append_assoc] at hplace
    rw [List.flatMap_cons, List.length_append] at hmax
    have hfirst := turns_chunk hplace (by omega) hcap
    have hnext := ih (r := { r with p := r.p + c.bytes.length, out := r.out ++ c.data })
      (drop_of_drop_eq hplace rfl) (by rw [List.length_append]; omega)
    simp only [List.flatMap_cons, List.length_append, ← Nat.add_assoc, ← List.append_assoc]
    exact hfirst.trans hnext

/-- A size line that is not complete, where a limit applies. -/
theorem turn_size_refused {r : Reader} (hnone : breakOn crlf (r.stream.drop r.p) = none)
    (hlimit : 64 < r.stream.length - r.p ∨ ∃ read more, r.unread = read :: more ∧
      rawLimit cap < r.stream.length + read.length) : turn cap .size r = .refused 400 := by
  rw [turn, hnone]
  dsimp only
  by_cases hlong : 64 < r.stream.length - r.p
  · exact if_pos hlong
  · obtain ⟨read, more, hunread, hover⟩ := hlimit.resolve_left hlong
    have hrefill : refill cap r = (false, { r with unread := more }) := by
      rw [refill, hunread]
      exact if_pos hover
    rw [if_neg hlong, hrefill]

/-- A size line that is cut where a limit applies: the chunks before it are in the
buffer, with a part of the line that is longer than 64 bytes, or that a read would
take over the limit of the stream. -/
theorem refused_of_cut {before cs : List Chunk} {l : SizeLine} {rest part : Bytes}
    (hchunks : e.chunks = before ++ cs)
    (hcut : Cut e.bytes (before.flatMap Chunk.bytes ++ part) unread)
    (hline : e.bytes = before.flatMap Chunk.bytes ++ (l.text ++ crlf ++ rest))
    (hpart : part.length ≤ l.text.length + 1)
    (hlimit : 64 < part.length ∨ ∃ read more, unread = read :: more ∧
      rawLimit cap < (before.flatMap Chunk.bytes ++ part).length + read.length)
    (hbody : e.body.length ≤ cap) (hcap : cap < 2 ^ 63) :
    readChunkedBody cap (before.flatMap Chunk.bytes ++ part) unread = .refused 400 := by
  have hmax : (before.flatMap Chunk.data).length ≤ cap := by
    rw [Encoding.body, hchunks, List.flatMap_append, List.length_append] at hbody
    omega
  have hturns : Turns cap (.size, Reader.start (before.flatMap Chunk.bytes ++ part) unread)
      (.size, ⟨before.flatMap Chunk.bytes ++ part, (before.flatMap Chunk.bytes).length,
        before.flatMap Chunk.data, unread⟩) := by
    have h := turns_chunks before (r := Reader.start (before.flatMap Chunk.bytes ++ part) unread)
      rfl (by simpa [Reader.start] using hmax) hcap
    simpa only [Reader.start, Nat.zero_add, List.nil_append] using h
  have hnone : breakOn crlf part = none := by
    have htotal := hcut.total
    rw [hline, List.append_assoc] at htotal
    rcases await_line l.text_no_cr (List.append_cancel_left htotal) with ⟨y, hsome⟩ | ⟨hnone, -, -⟩
    · have hlen := congrArg List.length (breakOn_eq hsome)
      rw [List.length_append, List.length_append, show crlf.length = 2 from rfl] at hlen
      omega
    · exact hnone
  have hend : turn cap .size ⟨before.flatMap Chunk.bytes ++ part,
      (before.flatMap Chunk.bytes).length, before.flatMap Chunk.data, unread⟩ =
      .refused 400 := by
    refine turn_size_refused ?_ ?_
    · rw [List.drop_left]
      exact hnone
    · rcases hlimit with hlong | hover
      · refine Or.inl ?_
        dsimp only
        rw [List.length_append]
        omega
      · exact Or.inr hover
  refine (run_of_turns hturns (Sound.start cap _ unread) (Nat.lt_succ_self _) ?_).trans hend
  intro phase r h
  exact absurd (hend.symm.trans h) nofun

/-- Where a size line stands in the encoding. -/
theorem exists_line {l : SizeLine} (hl : l ∈ e.sizeLines) : ∃ before cs rest,
    e.chunks = before ++ cs ∧
    e.bytes = before.flatMap Chunk.bytes ++ (l.text ++ crlf ++ rest) := by
  rw [Encoding.sizeLines, List.mem_append, List.mem_singleton, List.mem_map] at hl
  rcases hl with ⟨c, hc, rfl⟩ | rfl
  · obtain ⟨before, cs, hchunks⟩ := List.append_of_mem hc
    refine ⟨before, c :: cs, c.data ++ crlf ++ (cs.flatMap Chunk.bytes ++ (e.last.text ++ crlf ++
      trailerBytes e.trailers)), hchunks, ?_⟩
    rw [Encoding.bytes, Encoding.chunkPart, hchunks, List.flatMap_append, List.flatMap_cons,
      Chunk.bytes]
    simp only [List.append_assoc]
  · refine ⟨e.chunks, [], trailerBytes e.trailers, (List.append_nil _).symm, ?_⟩
    simp only [Encoding.bytes, Encoding.chunkPart, List.append_assoc]

/-- One read for each byte. -/
def singles (bytes : Bytes) : List Bytes := bytes.map fun b => [b]

theorem flatten_singles (bytes : Bytes) : (singles bytes).flatten = bytes := by
  induction bytes with
  | nil => rfl
  | cons b bytes ih => exact congrArg (b :: ·) ih

theorem singles_reads {bytes : Bytes} : ∀ read ∈ singles bytes, read ≠ [] ∧ read.length ≤ 65536 := by
  intro read hread
  obtain ⟨b, -, rfl⟩ := List.mem_map.mp hread
  exact ⟨nofun, by simp⟩

theorem cut_buffer (bytes : Bytes) : Cut bytes bytes [] := ⟨List.append_nil _, nofun⟩

/-- Every cut yields the body or refuses it, and all cuts do the same. -/
def Encoding.Independent (e : Encoding) (cap : Nat) : Prop :=
  ∀ buf unread, Cut e.bytes buf unread →
    ((readChunkedBody cap buf unread).body = some e.body ∨
      ∃ status, readChunkedBody cap buf unread = .refused status) ∧
    ∀ buf' unread', Cut e.bytes buf' unread' →
      (readChunkedBody cap buf' unread').body = (readChunkedBody cap buf unread).body

/-- With the whole encoding in the buffer, no cut may refuse it. -/
theorem Encoding.Independent.not_refused (h : e.Independent cap) (hbody : e.body.length ≤ cap)
    (hcap : cap < 2 ^ 63) (hcut : Cut e.bytes buf unread) {status : Nat} :
    readChunkedBody cap buf unread ≠ .refused status := by
  intro hrefused
  have hsame := (h buf unread hcut).2 e.bytes [] (cut_buffer e.bytes)
  rw [hrefused] at hsame
  rcases readChunkedBody_outcome (cut_buffer e.bytes) hbody hcap with hyields | ⟨-, hne, -⟩
  · rw [hyields] at hsame
    cases hsame
  · exact hne rfl

theorem Encoding.Independent.within (h : e.Independent cap) (hbody : e.body.length ≤ cap)
    (hcap : cap < 2 ^ 63) : e.Within cap := by
  have hcrlf : crlf.length = 2 := rfl
  constructor
  · intro l hl
    by_contra hlong
    obtain ⟨before, cs, rest, hchunks, hbytes⟩ := exists_line hl
    -- Cut the line behind its 65th byte.
    have htotal : (before.flatMap Chunk.bytes ++ (l.text ++ crlf ++ rest).take 65) ++
        (singles ((l.text ++ crlf ++ rest).drop 65)).flatten = e.bytes := by
      rw [flatten_singles, List.append_assoc, List.take_append_drop, hbytes]
    have hcut := Cut.mk htotal singles_reads
    have hlen : ((l.text ++ crlf ++ rest).take 65).length = 65 := by
      rw [List.length_take, List.length_append, List.length_append]
      omega
    exact h.not_refused hbody hcap hcut (refused_of_cut hchunks hcut hbytes (by omega)
      (Or.inl (by omega)) hbody hcap)
  · by_contra hlimit
    rw [not_or] at hlimit
    -- Cut before the LF that ends the chunks, and read as much as fits.
    have hbytes : e.bytes = e.chunks.flatMap Chunk.bytes ++
        (e.last.text ++ crlf ++ trailerBytes e.trailers) := by
      simp only [Encoding.bytes, Encoding.chunkPart, List.append_assoc]
    have htotal : (e.chunks.flatMap Chunk.bytes ++ (e.last.text ++ [cr])) ++
        ((lf :: trailerBytes e.trailers).take 65536 ::
          singles ((lf :: trailerBytes e.trailers).drop 65536)).flatten = e.bytes := by
      rw [List.flatten_cons, flatten_singles, List.take_append_drop, hbytes]
      simp [crlf, cr, lf]
    have hcut : Cut e.bytes (e.chunks.flatMap Chunk.bytes ++ (e.last.text ++ [cr]))
        ((lf :: trailerBytes e.trailers).take 65536 ::
          singles ((lf :: trailerBytes e.trailers).drop 65536)) := by
      refine ⟨htotal, ?_⟩
      intro read hread
      rcases List.mem_cons.mp hread with rfl | hread
      · exact ⟨by simp, by rw [List.length_take]; omega⟩
      · exact singles_reads read hread
    have hnone : e.chunks = e.chunks ++ [] := (List.append_nil _).symm
    refine h.not_refused hbody hcap hcut (refused_of_cut hnone hcut hbytes (by simp)
      (Or.inr ⟨_, _, rfl, ?_⟩) hbody hcap)
    have hchunk : e.chunkPart.length =
        (e.chunks.flatMap Chunk.bytes).length + e.last.text.length + 2 := by
      simp only [Encoding.chunkPart, List.length_append]
      omega
    have hall : e.bytes.length = e.chunkPart.length + (trailerBytes e.trailers).length := by
      rw [Encoding.bytes, List.length_append]
    simp only [List.length_append, List.length_take, List.length_cons, List.length_nil]
    omega

/-- The decoder on an encoded body: what it does is independent of the reads
exactly when the encoding reaches neither limit.  And on any bytes at all: the
decoded body is within the limit in every state, no size or position leaves 64
bits, and every turn makes progress. -/
theorem readChunkedBody_spec (e : Encoding) (hbody : e.body.length ≤ cap) (hcap : cap < 2 ^ 63) :
    (e.Independent cap ↔ e.Within cap) ∧
    (∀ buf unread phase r, Turns cap (.size, .start buf unread) (phase, r) →
      r.out.length ≤ cap ∧
      (r.stream.length < 2 ^ 62 → NoWrap cap phase r) ∧
      ∀ phase' r', turn cap phase r = .more phase' r' → r'.weight < r.weight) := by
  refine ⟨⟨fun h => h.within hbody hcap, ?_⟩, ?_⟩
  · intro hwithin
    have hyields : ∀ buf unread, Cut e.bytes buf unread →
        (readChunkedBody cap buf unread).body = some e.body := by
      intro buf unread hcut
      rcases readChunkedBody_outcome hcut hbody hcap with h | ⟨-, -, hnot⟩
      · exact h
      · exact absurd hwithin hnot
    intro buf unread hcut
    refine ⟨Or.inl (hyields buf unread hcut), ?_⟩
    intro buf' unread' hcut'
    rw [hyields buf unread hcut, hyields buf' unread' hcut']
  · intro buf unread phase r hturns
    obtain ⟨hsound, -⟩ := hturns.sound (Sound.start cap buf unread)
    refine ⟨hsound.bounded, hsound.noWrap hcap, ?_⟩
    intro phase' r' hturn
    exact (hsound.turn hturn).2

end Whole

/-- The body `hi` in one chunk. -/
def hiEncoding : Encoding where
  chunks := [⟨⟨[50], [], by decide, by decide, Or.inl rfl, by decide⟩, [104, 105], by decide,
    by decide⟩]
  last := ⟨[48], [], by decide, by decide, Or.inl rfl, by decide⟩
  last_zero := by decide
  trailers := []
  trailers_ok := nofun

theorem readChunkedBody_spec_hi : hiEncoding.Independent 100 :=
  (readChunkedBody_spec hiEncoding (show hiEncoding.body.length ≤ 100 by decide)
    (by decide)).1.mpr ⟨by decide, Or.inl (by decide)⟩

/-- The same with an extension of 64 bytes. -/
def longEncoding : Encoding where
  chunks := [⟨⟨[50], 59 :: List.replicate 63 120, by decide, by decide, Or.inr ⟨_, rfl⟩,
    by decide⟩, [104, 105], by decide, by decide⟩]
  last := ⟨[48], [], by decide, by decide, Or.inl rfl, by decide⟩
  last_zero := by decide
  trailers := []
  trailers_ok := nofun

/-- All at once the body is decoded; cut behind the 65th byte it is refused. -/
theorem readChunkedBody_cut :
    (readChunkedBody 100 longEncoding.bytes []).body = some longEncoding.body ∧
    readChunkedBody 100 (longEncoding.bytes.take 65) [longEncoding.bytes.drop 65] =
      .refused 400 ∧
    ¬ longEncoding.Independent 100 := by
  have hbody : longEncoding.body.length ≤ 100 := by decide
  have hsplit : Cut longEncoding.bytes (longEncoding.bytes.take 65)
      [longEncoding.bytes.drop 65] := ⟨by simp, by decide⟩
  have hwhole : (readChunkedBody 100 longEncoding.bytes []).body = some longEncoding.body := by
    rcases readChunkedBody_outcome (cut_buffer longEncoding.bytes) hbody (by decide) with
      h | ⟨-, hne, -⟩
    · exact h
    · exact absurd rfl hne
  have hcut : readChunkedBody 100 (longEncoding.bytes.take 65) [longEncoding.bytes.drop 65] =
      .refused 400 := by
    obtain ⟨c, hc⟩ : ∃ c, longEncoding.chunks = [] ++ [c] := ⟨_, rfl⟩
    exact refused_of_cut hc hsplit
      (show longEncoding.bytes = [] ++ (c.size.text ++ crlf ++ longEncoding.bytes.drop 67) by
        cases hc
        decide)
      (by cases hc; decide) (Or.inl (by decide)) hbody (by decide)
  refine ⟨hwhole, hcut, ?_⟩
  intro h
  have hsame := (h longEncoding.bytes [] (cut_buffer _)).2 _ _ hsplit
  rw [hwhole, hcut] at hsame
  cases hsame

end Http

end Look
