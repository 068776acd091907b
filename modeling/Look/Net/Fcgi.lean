/-
The FastCGI loop: records, the name-value pairs of `FCGI_PARAMS`, and `accept`.

A web server encodes the parameters of a request as one byte stream and cuts this
stream into records where it likes.  `accept` decodes each record on its own, so a
pair that begins in one record and ends in the next is lost, and its second half
is read as if it were the beginning of a pair.  When no record ends inside a pair,
the request has exactly the parameters and the body that were sent.

`raw_read` waits until it has all the bytes it asks for, so the model reads from
the byte stream of the connection.  A `std::map` is an association list without
double keys.
-/
import Mathlib.Algebra.Group.Int.Defs
import Mathlib.Algebra.Group.Nat.Defs
import Look.Lib.AssocList
import Look.Lib.BigEndian

namespace Look

namespace Fcgi

/-! ## Records -/

def beginRequest : UInt8 := 1
def abortRequest : UInt8 := 2
def endRequestType : UInt8 := 3
def params : UInt8 := 4
def stdin : UInt8 := 5
def getValues : UInt8 := 9
def getValuesResult : UInt8 := 10

/-- `FcgiRecordHeader`. -/
structure RecordHeader where
  version : UInt8
  type : UInt8
  reqId : UInt16
  contentLen : UInt16
  paddingLen : UInt8
deriving DecidableEq

/-- `fcgi_decode_header`, on the eight bytes that the caller has read. -/
def decodeHeader (hdr : List UInt8) : RecordHeader where
  version := hdr.getD 0 0
  type := hdr.getD 1 0
  reqId := UInt16.ofNat ((hdr.getD 2 0).toNat <<< 8 ||| (hdr.getD 3 0).toNat)
  contentLen := UInt16.ofNat ((hdr.getD 4 0).toNat <<< 8 ||| (hdr.getD 5 0).toNat)
  paddingLen := hdr.getD 6 0

/-- `raw_read`: the bytes asked for and the rest of the stream, or nothing when
the connection ends before. -/
def rawRead (len : Nat) (bytes : List UInt8) : Option (List UInt8 × List UInt8) :=
  if bytes.length < len then none else some (bytes.take len, bytes.drop len)

/-- `read_record`: the type, the request and the content. -/
def readRecord (bytes : List UInt8) : Option ((UInt8 × UInt16 × List UInt8) × List UInt8) := do
  let (hdr, bytes) ← rawRead 8 bytes
  let h := decodeHeader hdr
  let (content, bytes) ← rawRead h.contentLen.toNat bytes
  let (_, bytes) ← rawRead h.paddingLen.toNat bytes
  return ((h.type, h.reqId, content), bytes)

/-- The padding of a record that `write_record` writes. -/
def padding (chunk : Nat) : Nat := (8 - chunk % 8) % 8

/-- One turn of the loop of `write_record`. -/
def writeChunk (type : UInt8) (reqId : UInt16) (chunk : List UInt8) : List UInt8 :=
  [1, type, UInt8.ofNat (reqId.toNat >>> 8), UInt8.ofNat (reqId.toNat &&& 0xFF),
    UInt8.ofNat (chunk.length >>> 8), UInt8.ofNat (chunk.length &&& 0xFF),
    UInt8.ofNat (padding chunk.length), 0] ++
  chunk ++ List.replicate (padding chunk.length) 0

/-- The chunks that `write_record` makes of its data; one empty chunk when there
is no data. -/
def chunks (data : List UInt8) : List (List UInt8) :=
  if 65535 < data.length then data.take 65535 :: chunks (data.drop 65535) else [data]
termination_by data.length
decreasing_by
  rw [List.length_drop]
  omega

def writeRecord (type : UInt8) (reqId : UInt16) (data : List UInt8) : List UInt8 :=
  (chunks data).flatMap (writeChunk type reqId)

/-! ## Name-value pairs -/

/-- `fcgi_read_len`: one byte, or four when the first has its high bit set; 0 and
no progress when the four bytes are not all there. -/
def readLen : List UInt8 → Nat × List UInt8
  | [] => (0, [])
  | b0 :: rest =>
    if b0.toNat >>> 7 = 0 then (b0.toNat, rest)
    else
      match rest with
      | b1 :: b2 :: b3 :: rest =>
        ((b0.toNat &&& 0x7F) <<< 24 ||| b1.toNat <<< 16 ||| b2.toNat <<< 8 ||| b3.toNat, rest)
      | rest => (0, b0 :: rest)

/-- The parameters of a request. -/
abbrev Params := List (List UInt8 × List UInt8)

/-- The loop of `fcgi_parse_params`; each turn that goes on uses a byte. -/
def parseParamsLoop : Nat → List UInt8 → Params → Params
  | 0, _, out => out
  | fuel + 1, bytes, out =>
    if bytes.isEmpty then out
    else
      let (nlen, afterName) := readLen bytes
      let (vlen, body) := readLen afterName
      if body.length = bytes.length then out
      else if body.length < nlen + vlen then out
      else
        parseParamsLoop fuel (body.drop (nlen + vlen))
          (AssocList.upsert (body.take nlen) ((body.drop nlen).take vlen) out)

def parseParams (bytes : List UInt8) (out : Params) : Params :=
  parseParamsLoop bytes.length bytes out

/-! ## Requests -/

/-- `FcgiRequest`. -/
structure Request where
  id : UInt16
  keepConn : Bool
  params : Params
  body : List UInt8
deriving DecidableEq

def Request.empty : Request := ⟨0, false, [], []⟩

/-- `fcgi_begin_keep_conn`. -/
def beginKeepConn (content : List UInt8) : Bool :=
  match content with
  | _ :: _ :: flags :: _ => flags &&& 0x01 != 0
  | _ => false

/-- `end_request`. -/
def endRequest (reqId : UInt16) (appStatus : Nat) : List UInt8 :=
  writeRecord endRequestType reqId (toBytes 4 appStatus ++ [0, 0, 0, 0])

/-- What `accept` keeps between two records, and the bytes it has written. -/
structure AcceptState where
  req : Request
  inRequest : Bool
  written : List UInt8
deriving DecidableEq

/-- What a record makes of the loop of `accept`. -/
inductive Accepted where
  | more (st : AcceptState)
  | ready (req : Request) (written : List UInt8)
  | closed (written : List UInt8)
deriving DecidableEq

/-- The `switch` of `accept`. -/
def acceptRecord (maxBody : Nat) (st : AcceptState) (type : UInt8) (rid : UInt16)
    (content : List UInt8) : Accepted :=
  if type = beginRequest then
    if 8 ≤ content.length then
      .more { st with
        req := { st.req with id := rid, keepConn := beginKeepConn content }
        inRequest := true }
    else .more st
  else if type = params then
    if st.inRequest && rid == st.req.id then
      if content.isEmpty then .more st
      else .more { st with req := { st.req with params := parseParams content st.req.params } }
    else .more st
  else if type = stdin then
    if st.inRequest && rid == st.req.id then
      if content.isEmpty then .ready st.req st.written
      else if maxBody < st.req.body.length + content.length then
        .closed (st.written ++ endRequest rid 1)
      else .more { st with req := { st.req with body := st.req.body ++ content } }
    else .more st
  else if type = abortRequest then
    .more ⟨Request.empty, false, st.written ++ endRequest rid 1⟩
  else if type = getValues then
    .more { st with written := st.written ++ writeRecord getValuesResult 0 [] }
  else .more st

/-- The loop of `accept`; each record uses at least eight bytes of the stream. -/
def acceptLoop (maxBody : Nat) : Nat → AcceptState → List UInt8 → Accepted × List UInt8
  | 0, st, bytes => (.closed st.written, bytes)
  | fuel + 1, st, bytes =>
    match readRecord bytes with
    | none => (.closed st.written, [])
    | some ((type, rid, content), bytes) =>
      match acceptRecord maxBody st type rid content with
      | .more st => acceptLoop maxBody fuel st bytes
      | done => (done, bytes)

/-- `accept`: the request, or the end of the connection, with the rest of the
stream. -/
def accept (maxBody : Nat) (bytes : List UInt8) : Accepted × List UInt8 :=
  acceptLoop maxBody bytes.length ⟨Request.empty, false, []⟩ bytes

/-! ## What a web server sends -/

/-- A record on the wire. -/
structure Record where
  version : UInt8
  type : UInt8
  reqId : UInt16
  content : List UInt8
  padding : List UInt8
  reserved : UInt8
  content_lt : content.length < 65536
  padding_lt : padding.length < 256

namespace Record

def header (r : Record) : List UInt8 :=
  [r.version, r.type, UInt8.ofNat (r.reqId.toNat >>> 8), UInt8.ofNat (r.reqId.toNat &&& 0xFF),
    UInt8.ofNat (r.content.length >>> 8), UInt8.ofNat (r.content.length &&& 0xFF),
    UInt8.ofNat r.padding.length, r.reserved]

def bytes (r : Record) : List UInt8 := r.header ++ r.content ++ r.padding

/-- Two bytes hold a number below 65536. -/
theorem two_bytes {n : Nat} (h : n < 65536) :
    (UInt8.ofNat (n >>> 8)).toNat <<< 8 ||| (UInt8.ofNat (n &&& 0xFF)).toNat = n := by
  have hlow : n &&& 0xFF = n % 256 := Nat.and_two_pow_sub_one_eq_mod n 8
  rw [shift_or_byte, UInt8.toNat_ofNat', UInt8.toNat_ofNat', Nat.shiftRight_eq_div_pow, hlow]
  omega

theorem decodeHeader_header (r : Record) : decodeHeader r.header =
    ⟨r.version, r.type, r.reqId, UInt16.ofNat r.content.length, UInt8.ofNat r.padding.length⟩ := by
  have hid : r.reqId.toNat < 65536 := r.reqId.toNat_lt
  simp only [decodeHeader, header, List.getD_cons_zero, List.getD_cons_succ, two_bytes hid,
    two_bytes r.content_lt, UInt16.ofNat_toNat]

theorem rawRead_append (a b : List UInt8) : rawRead a.length (a ++ b) = some (a, b) := by
  rw [rawRead, if_neg (by rw [List.length_append]; omega), List.take_left, List.drop_left]

theorem readRecord_bytes (r : Record) (rest : List UInt8) :
    readRecord (r.bytes ++ rest) = some ((r.type, r.reqId, r.content), rest) := by
  have hcontent : (UInt16.ofNat r.content.length).toNat = r.content.length :=
    UInt16.toNat_ofNat_of_lt' r.content_lt
  have hpadding : (UInt8.ofNat r.padding.length).toNat = r.padding.length :=
    UInt8.toNat_ofNat_of_lt' r.padding_lt
  have hheader : rawRead 8 (r.bytes ++ rest) =
      some (r.header, r.content ++ (r.padding ++ rest)) := by
    rw [bytes, List.append_assoc, List.append_assoc]
    exact rawRead_append r.header _
  simp only [readRecord, hheader, decodeHeader_header, hcontent, hpadding, rawRead_append,
    Option.bind_eq_bind, Option.bind_some, Option.pure_def]

theorem length_bytes (r : Record) : 8 ≤ r.bytes.length := by
  simp only [bytes, header, List.length_append, List.length_cons]
  omega

end Record

/-- A name-value pair, and the form in which its lengths are sent. -/
structure Pair where
  name : List UInt8
  value : List UInt8
  longName : Bool
  longValue : Bool
  name_lt : name.length < if longName then 2 ^ 31 else 128
  value_lt : value.length < if longValue then 2 ^ 31 else 128

def encodeLen (long : Bool) (n : Nat) : List UInt8 :=
  if long then toBytes 4 (2 ^ 31 + n) else [UInt8.ofNat n]

namespace Pair

def encode (p : Pair) : List UInt8 :=
  encodeLen p.longName p.name.length ++ encodeLen p.longValue p.value.length ++ p.name ++ p.value

theorem four_bytes {a b c d : Nat} (hb : b < 2 ^ 8) (hc : c < 2 ^ 8) (hd : d < 2 ^ 8) :
    a <<< 24 ||| b <<< 16 ||| c <<< 8 ||| d = a * 2 ^ 24 + b * 2 ^ 16 + c * 2 ^ 8 + d := by
  have h1 : a <<< 24 ||| b <<< 16 = (a * 2 ^ 8 + b) <<< 16 := by
    rw [← Nat.shiftLeft_add_eq_or_of_lt (by rw [Nat.shiftLeft_eq]; omega)]
    simp only [Nat.shiftLeft_eq]
    omega
  have h2 : (a * 2 ^ 8 + b) <<< 16 ||| c <<< 8 = ((a * 2 ^ 8 + b) * 2 ^ 8 + c) <<< 8 := by
    rw [← Nat.shiftLeft_add_eq_or_of_lt (by rw [Nat.shiftLeft_eq]; omega)]
    simp only [Nat.shiftLeft_eq]
    omega
  rw [h1, h2, ← Nat.shiftLeft_add_eq_or_of_lt hd]
  simp only [Nat.shiftLeft_eq]
  omega

/-- `fcgi_read_len` reads what was sent, in either form. -/
theorem readLen_encodeLen {long : Bool} {n : Nat} (h : n < if long then 2 ^ 31 else 128)
    (rest : List UInt8) : readLen (encodeLen long n ++ rest) = (n, rest) := by
  cases long with
  | false =>
    have hn : (UInt8.ofNat n).toNat = n := UInt8.toNat_ofNat_of_lt' (Nat.lt_trans h (by decide))
    have hshift : n >>> 7 = 0 := by
      rw [Nat.shiftRight_eq_div_pow]
      simp at h
      omega
    simp [encodeLen, readLen, hn, hshift]
  | true =>
    rw [if_pos rfl] at h
    have hbytes : toBytes 4 (2 ^ 31 + n) = [UInt8.ofNat (128 + n / 2 ^ 24),
        UInt8.ofNat (n / 2 ^ 16), UInt8.ofNat (n / 2 ^ 8), UInt8.ofNat n] := by
      simp only [toBytes, Nat.shiftRight_eq_div_pow, List.nil_append, List.cons_append,
        List.cons.injEq, and_true]
      refine ⟨?_, ?_, ?_, ?_⟩ <;>
        · apply UInt8.toNat_inj.mp
          rw [UInt8.toNat_ofNat', UInt8.toNat_ofNat']
          omega
    have hhigh : (UInt8.ofNat (128 + n / 2 ^ 24)).toNat = 128 + n / 2 ^ 24 :=
      UInt8.toNat_ofNat_of_lt' (by show _ < 256; omega)
    have hshift : ¬ (128 + n / 2 ^ 24) >>> 7 = 0 := by
      rw [Nat.shiftRight_eq_div_pow]
      omega
    have hmask : (128 + n / 2 ^ 24) &&& 0x7F = n / 2 ^ 24 := by
      have := Nat.and_two_pow_sub_one_eq_mod (128 + n / 2 ^ 24) 7
      rw [show (2 : Nat) ^ 7 - 1 = 0x7F from rfl] at this
      omega
    rw [encodeLen, if_pos rfl, hbytes]
    simp only [List.cons_append, List.nil_append, readLen, hhigh, if_neg hshift, hmask,
      UInt8.toNat_ofNat', Prod.mk.injEq, and_true]
    rw [four_bytes (Nat.mod_lt _ (by decide)) (Nat.mod_lt _ (by decide))
      (Nat.mod_lt _ (by decide))]
    omega

theorem length_encodeLen_pos (long : Bool) (n : Nat) : 0 < (encodeLen long n).length := by
  cases long
  · exact Nat.one_pos
  · rw [encodeLen, if_pos rfl, length_toBytes]
    decide

/-- The map that the pairs stand for; of two pairs with one name the last counts. -/
def store (ps : List Pair) (out : Params) : Params :=
  ps.foldl (fun out p => AssocList.upsert p.name p.value out) out

/-- The value of a name: that of the last pair with this name. -/
def lastValue (name : List UInt8) (ps : List Pair) : Option (List UInt8) :=
  (ps.reverse.find? fun p => p.name == name).map Pair.value

theorem lookup_store (name : List UInt8) (ps : List Pair) (out : Params) :
    AssocList.lookup name (store ps out) = (lastValue name ps).or (AssocList.lookup name out) := by
  induction ps generalizing out with
  | nil => rfl
  | cons p ps ih =>
    have hstore : store (p :: ps) out = store ps (AssocList.upsert p.name p.value out) := rfl
    rw [hstore, ih, lastValue, lastValue, List.reverse_cons, List.find?_append]
    cases hfind : ps.reverse.find? fun p => p.name == name with
    | some q => rfl
    | none =>
      by_cases hname : p.name = name
      · subst hname
        simp [AssocList.lookup_upsert_self]
      · rw [AssocList.lookup_upsert_of_ne _ _ (Ne.symm hname)]
        simp [hname]

/-- A whole number of pairs is decoded pair by pair. -/
theorem parseParamsLoop_encode (ps : List Pair) {fuel : Nat} {out : Params}
    (h : (ps.flatMap encode).length ≤ fuel) :
    parseParamsLoop fuel (ps.flatMap encode) out = store ps out := by
  induction ps generalizing fuel out with
  | nil => cases fuel <;> rfl
  | cons p ps ih =>
    have hname := length_encodeLen_pos p.longName p.name.length
    rw [List.flatMap_cons, List.length_append] at h
    have hlen : p.encode.length = (encodeLen p.longName p.name.length).length +
        (encodeLen p.longValue p.value.length).length + p.name.length + p.value.length := by
      simp only [encode, List.length_append]
    obtain ⟨fuel, rfl⟩ : ∃ k, fuel = k + 1 := ⟨fuel - 1, by omega⟩
    have hsplit : (p :: ps).flatMap encode = encodeLen p.longName p.name.length ++
        (encodeLen p.longValue p.value.length ++
          (p.name ++ (p.value ++ ps.flatMap encode))) := by
      simp only [List.flatMap_cons, encode, List.append_assoc]
    have hne : ((p :: ps).flatMap encode).isEmpty = false := by
      rw [List.isEmpty_eq_false_iff_exists_mem, hsplit]
      obtain ⟨b, hb⟩ := List.exists_mem_of_length_pos hname
      exact ⟨b, List.mem_append_left _ hb⟩
    have hdrop : (p.name ++ (p.value ++ ps.flatMap encode)).drop
        (p.name.length + p.value.length) = ps.flatMap encode := by
      rw [← List.append_assoc, ← List.length_append, List.drop_left]
    rw [parseParamsLoop, hne, hsplit]
    simp only [readLen_encodeLen p.name_lt, readLen_encodeLen p.value_lt, Bool.false_eq_true,
      if_false, List.length_append]
    rw [if_neg (by omega), if_neg (by omega), hdrop, List.take_left, List.drop_left,
      List.take_left, ih (by omega)]
    rfl

theorem parseParams_encode (ps : List Pair) (out : Params) :
    parseParams (ps.flatMap encode) out = store ps out :=
  parseParamsLoop_encode ps (Nat.le_refl _)

end Pair

/-- A request as a web server sends it: `FCGI_BEGIN_REQUEST`, the two streams cut
into records, and an empty record behind each stream. -/
structure Sent (pairs : List Pair) (body : List UInt8) where
  reqId : UInt16
  start : Record
  start_eq : start.type = beginRequest ∧ start.reqId = reqId ∧ 8 ≤ start.content.length
  paramsRecords : List Record
  params_eq : ∀ r ∈ paramsRecords, r.type = params ∧ r.reqId = reqId ∧ r.content ≠ []
  params_stream : paramsRecords.flatMap Record.content = pairs.flatMap Pair.encode
  paramsEnd : Record
  paramsEnd_eq : paramsEnd.type = params ∧ paramsEnd.reqId = reqId ∧ paramsEnd.content = []
  stdinRecords : List Record
  stdin_eq : ∀ r ∈ stdinRecords, r.type = stdin ∧ r.reqId = reqId ∧ r.content ≠ []
  stdin_stream : stdinRecords.flatMap Record.content = body
  stdinEnd : Record
  stdinEnd_eq : stdinEnd.type = stdin ∧ stdinEnd.reqId = reqId ∧ stdinEnd.content = []

namespace Sent

variable {pairs : List Pair} {body : List UInt8}

def bytes (s : Sent pairs body) : List UInt8 :=
  s.start.bytes ++ (s.paramsRecords.flatMap Record.bytes ++ (s.paramsEnd.bytes ++
    (s.stdinRecords.flatMap Record.bytes ++ s.stdinEnd.bytes)))

/-- No record ends inside a pair. -/
def WholePairs (s : Sent pairs body) : Prop :=
  ∃ groups : List (List Pair), groups.flatten = pairs ∧
    s.paramsRecords.map Record.content = groups.map (List.flatMap Pair.encode)

end Sent

/-! ## What `accept` makes of it -/

section Accept

variable (maxBody : Nat) {fuel : Nat} (st : AcceptState) {rest : List UInt8}

/-- One record at the front of the stream. -/
theorem acceptLoop_record (r : Record) (h : (r.bytes ++ rest).length ≤ fuel) :
    ∃ fuel', rest.length ≤ fuel' ∧ acceptLoop maxBody fuel st (r.bytes ++ rest) =
      match acceptRecord maxBody st r.type r.reqId r.content with
      | .more st => acceptLoop maxBody fuel' st rest
      | done => (done, rest) := by
  have hlen := r.length_bytes
  rw [List.length_append] at h
  obtain ⟨fuel, rfl⟩ : ∃ k, fuel = k + 1 := ⟨fuel - 1, by omega⟩
  refine ⟨fuel, by omega, ?_⟩
  rw [acceptLoop, r.readRecord_bytes]

theorem acceptRecord_params {content : List UInt8} (hin : st.inRequest = true) :
    acceptRecord maxBody st params st.req.id content =
      .more { st with req := { st.req with params := parseParams content st.req.params } } := by
  rw [acceptRecord, if_neg (by decide), if_pos rfl, if_pos (by simp [hin])]
  cases content <;> rfl

theorem acceptRecord_stdin {content : List UInt8} (hin : st.inRequest = true) :
    acceptRecord maxBody st stdin st.req.id content =
      if content.isEmpty then .ready st.req st.written
      else if maxBody < st.req.body.length + content.length then
        .closed (st.written ++ endRequest st.req.id 1)
      else .more { st with req := { st.req with body := st.req.body ++ content } } := by
  rw [acceptRecord, if_neg (by decide), if_neg (by decide), if_pos rfl, if_pos (by simp [hin])]

/-- Records of whole pairs: the parameters are those of all the pairs. -/
theorem acceptLoop_params (rs : List Record) {groups : List (List Pair)}
    (hrs : ∀ r ∈ rs, r.type = params ∧ r.reqId = st.req.id ∧ r.content ≠ [])
    (hgroups : rs.map Record.content = groups.map (List.flatMap Pair.encode))
    (hin : st.inRequest = true) (h : (rs.flatMap Record.bytes ++ rest).length ≤ fuel) :
    ∃ fuel', rest.length ≤ fuel' ∧
      acceptLoop maxBody fuel st (rs.flatMap Record.bytes ++ rest) =
        acceptLoop maxBody fuel' { st with req := { st.req with
          params := Pair.store groups.flatten st.req.params } } rest := by
  induction rs generalizing groups st fuel with
  | nil =>
    cases groups with
    | nil => exact ⟨fuel, h, rfl⟩
    | cons g groups => cases hgroups
  | cons r rs ih =>
    cases groups with
    | nil => cases hgroups
    | cons g groups =>
      rw [List.map_cons, List.map_cons, List.cons.injEq] at hgroups
      obtain ⟨hg, hgroups⟩ := hgroups
      obtain ⟨htype, hid, -⟩ := hrs r List.mem_cons_self
      rw [List.flatMap_cons, List.append_assoc] at h ⊢
      obtain ⟨fuel', hfuel', heq⟩ := acceptLoop_record maxBody st r h
      rw [heq, htype, hid, acceptRecord_params maxBody st hin, hg, Pair.parseParams_encode]
      obtain ⟨fuel'', hfuel'', heq⟩ := ih ({ st with req := { st.req with
        params := Pair.store g st.req.params } })
        (fun r hr => hrs r (List.mem_cons_of_mem _ hr)) hgroups hin hfuel'
      refine ⟨fuel'', hfuel'', heq.trans ?_⟩
      simp only [List.flatten_cons, Pair.store, List.foldl_append]

/-- Records of the body, up to the limit. -/
theorem acceptLoop_stdin (rs : List Record)
    (hrs : ∀ r ∈ rs, r.type = stdin ∧ r.reqId = st.req.id ∧ r.content ≠ [])
    (hin : st.inRequest = true) (h : (rs.flatMap Record.bytes ++ rest).length ≤ fuel)
    (hbody : st.req.body.length + (rs.flatMap Record.content).length ≤ maxBody) :
    ∃ fuel', rest.length ≤ fuel' ∧
      acceptLoop maxBody fuel st (rs.flatMap Record.bytes ++ rest) =
        acceptLoop maxBody fuel' { st with req := { st.req with
          body := st.req.body ++ rs.flatMap Record.content } } rest := by
  induction rs generalizing st fuel with
  | nil => exact ⟨fuel, h, by simp⟩
  | cons r rs ih =>
    obtain ⟨htype, hid, hne⟩ := hrs r List.mem_cons_self
    rw [List.flatMap_cons, List.length_append] at hbody
    rw [List.flatMap_cons, List.append_assoc] at h ⊢
    obtain ⟨fuel', hfuel', heq⟩ := acceptLoop_record maxBody st r h
    have hcontent : r.content.isEmpty = false := by simpa using hne
    rw [heq, htype, hid, acceptRecord_stdin maxBody st hin, hcontent, if_neg Bool.false_ne_true,
      if_neg (by omega)]
    obtain ⟨fuel'', hfuel'', heq⟩ := ih ({ st with req := { st.req with
      body := st.req.body ++ r.content } })
      (fun r hr => hrs r (List.mem_cons_of_mem _ hr)) hin hfuel'
      (by rw [List.length_append]; omega)
    refine ⟨fuel'', hfuel'', heq.trans ?_⟩
    simp only [List.flatMap_cons, List.append_assoc]

/-- Records of a body over the limit: no request is built. -/
theorem acceptLoop_stdin_over (rs : List Record)
    (hrs : ∀ r ∈ rs, r.type = stdin ∧ r.reqId = st.req.id ∧ r.content ≠ [])
    (hin : st.inRequest = true) (h : (rs.flatMap Record.bytes ++ rest).length ≤ fuel)
    (hle : st.req.body.length ≤ maxBody)
    (hbody : maxBody < st.req.body.length + (rs.flatMap Record.content).length) :
    ∃ written rest', acceptLoop maxBody fuel st (rs.flatMap Record.bytes ++ rest) =
      (.closed written, rest') := by
  induction rs generalizing st fuel with
  | nil =>
    simp at hbody
    omega
  | cons r rs ih =>
    obtain ⟨htype, hid, hne⟩ := hrs r List.mem_cons_self
    rw [List.flatMap_cons, List.length_append] at hbody
    rw [List.flatMap_cons, List.append_assoc] at h ⊢
    obtain ⟨fuel', hfuel', heq⟩ := acceptLoop_record maxBody st r h
    have hcontent : r.content.isEmpty = false := by simpa using hne
    rw [heq, htype, hid, acceptRecord_stdin maxBody st hin, hcontent, if_neg Bool.false_ne_true]
    by_cases hover : maxBody < st.req.body.length + r.content.length
    · rw [if_pos hover]
      exact ⟨_, _, rfl⟩
    · rw [if_neg hover]
      exact ih ({ st with req := { st.req with body := st.req.body ++ r.content } })
        (fun r hr => hrs r (List.mem_cons_of_mem _ hr)) hin hfuel'
        (by rw [List.length_append]; omega) (by rw [List.length_append]; omega)

variable {pairs : List Pair} {body : List UInt8}

/-- The loop when it has read the parameters of a request. -/
def Sent.afterParams (s : Sent pairs body) : AcceptState :=
  ⟨⟨s.reqId, beginKeepConn s.start.content, Pair.store pairs [], []⟩, true, []⟩

theorem accept_params (rest : List UInt8) (s : Sent pairs body) (h : s.WholePairs) :
    ∃ fuel, (s.stdinRecords.flatMap Record.bytes ++ (s.stdinEnd.bytes ++ rest)).length ≤ fuel ∧
      accept maxBody (s.bytes ++ rest) = acceptLoop maxBody fuel s.afterParams
        (s.stdinRecords.flatMap Record.bytes ++ (s.stdinEnd.bytes ++ rest)) := by
  obtain ⟨groups, hpairs, hgroups⟩ := h
  obtain ⟨hstart, hstartId, hstartLen⟩ := s.start_eq
  obtain ⟨hpend, hpendId, hpendNil⟩ := s.paramsEnd_eq
  have hbegin : acceptRecord maxBody ⟨Request.empty, false, []⟩ beginRequest s.reqId
      s.start.content =
      .more ⟨⟨s.reqId, beginKeepConn s.start.content, [], []⟩, true, []⟩ := by
    rw [acceptRecord, if_pos rfl, if_pos hstartLen]
    rfl
  have hassoc : s.bytes ++ rest = s.start.bytes ++ (s.paramsRecords.flatMap Record.bytes ++
      (s.paramsEnd.bytes ++ (s.stdinRecords.flatMap Record.bytes ++
        (s.stdinEnd.bytes ++ rest)))) := by
    simp only [Sent.bytes, List.append_assoc]
  rw [accept, hassoc]
  obtain ⟨fuel1, hfuel1, heq1⟩ := acceptLoop_record maxBody
    (⟨Request.empty, false, []⟩) s.start (Nat.le_refl _)
  rw [heq1, hstart, hstartId, hbegin]
  obtain ⟨fuel2, hfuel2, heq2⟩ := acceptLoop_params maxBody
    (⟨⟨s.reqId, beginKeepConn s.start.content, [], []⟩, true, []⟩)
    s.paramsRecords s.params_eq hgroups rfl hfuel1
  obtain ⟨fuel3, hfuel3, heq3⟩ := acceptLoop_record maxBody
    (⟨⟨s.reqId, beginKeepConn s.start.content, Pair.store groups.flatten [], []⟩, true, []⟩)
    s.paramsEnd hfuel2
  refine ⟨fuel3, hfuel3, heq2.trans (heq3.trans ?_)⟩
  rw [hpend, hpendId, acceptRecord_params _ _ rfl, hpendNil, hpairs]
  rfl

/-- A request cut between pairs, with a body within the limit. -/
theorem accept_within (s : Sent pairs body) (h : s.WholePairs) (hbody : body.length ≤ maxBody) :
    accept maxBody (s.bytes ++ rest) =
      (.ready ⟨s.reqId, beginKeepConn s.start.content, Pair.store pairs [], body⟩ [], rest) := by
  obtain ⟨hsend, hsendId, hsendNil⟩ := s.stdinEnd_eq
  obtain ⟨fuel1, hfuel1, heq1⟩ := accept_params maxBody rest s h
  obtain ⟨fuel2, hfuel2, heq2⟩ := acceptLoop_stdin maxBody s.afterParams
    s.stdinRecords s.stdin_eq rfl hfuel1
    (by rw [s.stdin_stream]; simpa [Sent.afterParams] using hbody)
  obtain ⟨fuel3, hfuel3, heq3⟩ := acceptLoop_record maxBody
    (⟨⟨s.reqId, beginKeepConn s.start.content, Pair.store pairs [],
      [] ++ s.stdinRecords.flatMap Record.content⟩, true, []⟩) s.stdinEnd hfuel2
  refine heq1.trans (heq2.trans (heq3.trans ?_))
  rw [hsend, hsendId, acceptRecord_stdin _ _ rfl, hsendNil, s.stdin_stream]
  rfl

/-- A request whose body is over the limit is refused. -/
theorem accept_over (s : Sent pairs body) (h : s.WholePairs) (hbody : maxBody < body.length) :
    ∃ written rest', accept maxBody (s.bytes ++ rest) = (.closed written, rest') := by
  obtain ⟨fuel1, hfuel1, heq1⟩ := accept_params maxBody rest s h
  rw [heq1]
  exact acceptLoop_stdin_over maxBody s.afterParams s.stdinRecords s.stdin_eq rfl hfuel1
    (Nat.zero_le _) (by rw [s.stdin_stream]; simpa [Sent.afterParams] using hbody)

end Accept

/-! ## What `write_record` writes -/

theorem chunks_flatten (data : List UInt8) : (chunks data).flatten = data := by
  fun_induction chunks data with
  | case1 data h ih => rw [List.flatten_cons, ih, List.take_append_drop]
  | case2 data h => simp

theorem length_of_mem_chunks {data c : List UInt8} (h : c ∈ chunks data) : c.length < 65536 := by
  fun_induction chunks data with
  | case1 data hlen ih =>
    rcases List.mem_cons.mp h with rfl | h
    · rw [List.length_take]
      omega
    · exact ih h
  | case2 data hlen =>
    rw [List.mem_singleton] at h
    subst h
    omega

theorem padding_lt (n : Nat) : padding n < 8 := Nat.mod_lt _ (by decide)

/-- One chunk as a record. -/
def chunkRecord (type : UInt8) (reqId : UInt16) {c : List UInt8} (h : c.length < 65536) :
    Record where
  version := 1
  type := type
  reqId := reqId
  content := c
  padding := List.replicate (padding c.length) 0
  reserved := 0
  content_lt := h
  padding_lt := by
    have := padding_lt c.length
    rw [List.length_replicate]
    omega

theorem writeChunk_eq (type : UInt8) (reqId : UInt16) {c : List UInt8} (h : c.length < 65536) :
    writeChunk type reqId c = (chunkRecord type reqId h).bytes := by
  simp only [writeChunk, Record.bytes, Record.header, chunkRecord, List.length_replicate]

/-- The header of a chunk says what was written. -/
theorem decodeHeader_writeChunk (type : UInt8) (reqId : UInt16) {c : List UInt8}
    (h : c.length < 65536) :
    (decodeHeader ((writeChunk type reqId c).take 8)).type = type ∧
    (decodeHeader ((writeChunk type reqId c).take 8)).reqId = reqId ∧
    (decodeHeader ((writeChunk type reqId c).take 8)).contentLen.toNat = c.length ∧
    (decodeHeader ((writeChunk type reqId c).take 8)).paddingLen.toNat = padding c.length := by
  have htake : (writeChunk type reqId c).take 8 = (chunkRecord type reqId h).header := by
    rw [writeChunk_eq type reqId h, Record.bytes, List.append_assoc]
    exact List.take_left' rfl
  have hpad := padding_lt c.length
  rw [htake, Record.decodeHeader_header]
  refine ⟨rfl, rfl, UInt16.toNat_ofNat_of_lt' h, ?_⟩
  simp only [chunkRecord, List.length_replicate]
  exact UInt8.toNat_ofNat_of_lt' (Nat.lt_trans hpad (by decide))

/-! ## The loop and the records -/

/-- When no record ends inside a pair, the request has exactly the parameters and
the body that were sent, or is refused for the size of its body; and the headers
that `write_record` writes, over data of any length, are decoded to what was
written. -/
theorem accept_sent {pairs : List Pair} {body : List UInt8} (s : Sent pairs body)
    (h : s.WholePairs) (maxBody : Nat) (rest : List UInt8) :
    (body.length ≤ maxBody → ∃ req, accept maxBody (s.bytes ++ rest) = (.ready req [], rest) ∧
      req.id = s.reqId ∧ req.body = body ∧
      ∀ name, AssocList.lookup name req.params = Pair.lastValue name pairs) ∧
    (maxBody < body.length →
      ∃ written rest', accept maxBody (s.bytes ++ rest) = (.closed written, rest')) ∧
    (∀ (type : UInt8) (reqId : UInt16) (data : List UInt8),
      writeRecord type reqId data = (chunks data).flatMap (writeChunk type reqId) ∧
      (chunks data).flatten = data ∧
      ∀ c ∈ chunks data, ∀ hdr, hdr = decodeHeader ((writeChunk type reqId c).take 8) →
        hdr.type = type ∧ hdr.reqId = reqId ∧ hdr.contentLen.toNat = c.length ∧
        hdr.paddingLen.toNat = padding c.length ∧
        readRecord (writeChunk type reqId c ++ rest) = some ((type, reqId, c), rest)) := by
  refine ⟨?_, accept_over maxBody s h, ?_⟩
  · intro hbody
    refine ⟨_, accept_within maxBody s h hbody, rfl, rfl, ?_⟩
    intro name
    rw [Pair.lookup_store]
    exact Option.or_none
  · intro type reqId data
    refine ⟨rfl, chunks_flatten data, ?_⟩
    rintro c hc hdr rfl
    have hlen := length_of_mem_chunks hc
    obtain ⟨htype, hid, hcontent, hpadding⟩ := decodeHeader_writeChunk type reqId hlen
    refine ⟨htype, hid, hcontent, hpadding, ?_⟩
    rw [writeChunk_eq type reqId hlen]
    exact (chunkRecord type reqId hlen).readRecord_bytes rest

/-- The pair `A = bc`. -/
def pairA : Pair := ⟨[65], [98, 99], false, false, by decide, by decide⟩

/-- A record of request 1 with no padding. -/
def plain (type : UInt8) (content : List UInt8) (h : content.length < 65536) : Record :=
  ⟨1, type, 1, content, [], 0, h, by decide⟩

/-- `A = bc` in one record, and a body in two. -/
def sentWhole : Sent [pairA] [104, 105] where
  reqId := 1
  start := plain beginRequest [0, 1, 0, 0, 0, 0, 0, 0] (by decide)
  start_eq := by decide
  paramsRecords := [plain params [1, 2, 65, 98, 99] (by decide)]
  params_eq := by simp [plain]
  params_stream := by decide
  paramsEnd := plain params [] (by decide)
  paramsEnd_eq := ⟨rfl, rfl, rfl⟩
  stdinRecords := [plain stdin [104] (by decide), plain stdin [105] (by decide)]
  stdin_eq := by simp [plain]
  stdin_stream := rfl
  stdinEnd := plain stdin [] (by decide)
  stdinEnd_eq := ⟨rfl, rfl, rfl⟩

theorem accept_sent_whole : ∃ req, accept 10 (sentWhole.bytes ++ []) = (.ready req [], []) ∧
    req.body = [104, 105] ∧ AssocList.lookup [65] req.params = some [98, 99] := by
  obtain ⟨req, hreq, -, hbody, hparams⟩ :=
    (accept_sent sentWhole ⟨[[pairA]], rfl, by decide⟩ 10 []).1 (by decide)
  exact ⟨req, hreq, hbody, (hparams [65]).trans rfl⟩

/-- The same with the record cut inside the pair. -/
def sentCut : Sent [pairA] [104, 105] :=
  { sentWhole with
    paramsRecords := [plain params [1, 2, 65] (by decide), plain params [98, 99] (by decide)]
    params_eq := by simp [plain, sentWhole]
    params_stream := by decide }

/-- The request that is built has no parameter at all. -/
theorem accept_cut : ∃ req, accept 10 sentCut.bytes = (.ready req [], []) ∧
    AssocList.lookup [65] req.params ≠ Pair.lastValue [65] [pairA] :=
  ⟨⟨1, false, [], [104, 105]⟩, by decide +kernel, by decide⟩

end Fcgi

end Look
