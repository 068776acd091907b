/-
The packets of the MySQL protocol and the length-encoded values in them.

A payload goes in packets of `0xFFFFFF` bytes and a shorter one at the end, which may be
empty, and `mysql_reassemble` puts it together again.  `send_packet` writes one packet
whatever the length is.  `packets`, `lenenc` and `lenencStr` are what the protocol
prescribes; the other definitions are those of `mysql_wire_parse.h` and
`mysql_client.cpp`.
-/
import Mathlib.Algebra.Group.Int.Defs
import Mathlib.Algebra.Group.Nat.Defs
import Look.Lib.Find
import Look.Lib.LittleEndian
import Look.Lib.Socket

namespace Look

namespace Mysql

abbrev Bytes := List UInt8

/-- The text of a `runtime_error`. -/
abbrev Error := Bytes

/-! ## Length-encoded values -/

/-- `mysql_read_lenenc`, on the bytes from `p` to `end`. -/
def readLenenc : Bytes → Nat × Bytes
  | [] => (0, [])
  | first :: p =>
    if first < 0xFB then (first.toNat, p)
    else if first = 0xFC ∧ 2 ≤ p.length then (ofLe (p.take 2), p.drop 2)
    else if first = 0xFD ∧ 3 ≤ p.length then (ofLe (p.take 3), p.drop 3)
    else if first = 0xFE ∧ 8 ≤ p.length then (ofLe (p.take 8), p.drop 8)
    else (0, p)

/-- `mysql_read_lenenc_str`. -/
def readLenencStr : Bytes → Bytes × Bytes
  | [] => ([], [])
  | b :: p =>
    if b = 0xFB then ([], p)
    else
      let (len, rest) := readLenenc (b :: p)
      let len := min len rest.length
      (rest.take len, rest.drop len)

def lenenc (n : Nat) : Bytes :=
  if n < 251 then [UInt8.ofNat n]
  else if n < 2 ^ 16 then 0xFC :: toLe 2 n
  else if n < 2 ^ 24 then 0xFD :: toLe 3 n
  else 0xFE :: toLe 8 n

def lenencStr (s : Bytes) : Bytes := lenenc s.length ++ s

/-- A number behind a byte that says how many bytes it has. -/
theorem take_toLe {w n : Nat} (rest : Bytes) (h : n < 256 ^ w) :
    ofLe ((toLe w n ++ rest).take w) = n ∧ (toLe w n ++ rest).drop w = rest := by
  have hlen := length_toLe w n
  rw [List.take_left' hlen, List.drop_left' hlen]
  exact ⟨ofLe_toLe_of_lt h, rfl⟩

theorem readLenenc_lenenc {n : Nat} (h : n < 2 ^ 64) (rest : Bytes) :
    readLenenc (lenenc n ++ rest) = (n, rest) := by
  have hlen : ∀ w, w ≤ (toLe w n ++ rest).length := by
    intro w
    rw [List.length_append, length_toLe]
    exact Nat.le_add_right _ _
  rw [lenenc]
  split
  · rename_i hn
    have hfirst : UInt8.ofNat n < 0xFB := by
      rw [UInt8.lt_iff_toNat_lt, UInt8.toNat_ofNat', Nat.mod_eq_of_lt (by omega)]
      exact hn
    rw [List.singleton_append, readLenenc, if_pos hfirst, UInt8.toNat_ofNat',
      Nat.mod_eq_of_lt (by omega)]
  · split
    · rename_i hn
      obtain ⟨hval, hrest⟩ := take_toLe (w := 2) rest (n := n) (by omega)
      rw [List.cons_append, readLenenc, if_neg (by decide), if_pos ⟨rfl, hlen 2⟩, hval, hrest]
    · split
      · rename_i hn
        obtain ⟨hval, hrest⟩ := take_toLe (w := 3) rest (n := n) (by omega)
        rw [List.cons_append, readLenenc, if_neg (by decide), if_neg (fun h => absurd h.1 (by decide)),
          if_pos ⟨rfl, hlen 3⟩, hval, hrest]
      · obtain ⟨hval, hrest⟩ := take_toLe (w := 8) rest (n := n) (by omega)
        rw [List.cons_append, readLenenc, if_neg (by decide), if_neg (fun h => absurd h.1 (by decide)),
          if_neg (fun h => absurd h.1 (by decide)), if_pos ⟨rfl, hlen 8⟩, hval, hrest]

theorem lenenc_ne_null (n : Nat) : ∃ b bs, lenenc n = b :: bs ∧ b ≠ 0xFB := by
  rw [lenenc]
  split
  · rename_i hn
    refine ⟨_, _, rfl, ?_⟩
    intro heq
    have hval := congrArg UInt8.toNat heq
    rw [UInt8.toNat_ofNat', Nat.mod_eq_of_lt (by omega)] at hval
    exact absurd (hval ▸ hn) (by decide)
  · split
    · exact ⟨_, _, rfl, by decide⟩
    · split
      · exact ⟨_, _, rfl, by decide⟩
      · exact ⟨_, _, rfl, by decide⟩

theorem readLenencStr_lenencStr {s : Bytes} (h : s.length < 2 ^ 64) (rest : Bytes) :
    readLenencStr (lenencStr s ++ rest) = (s, rest) := by
  obtain ⟨b, bs, hlenenc, hb⟩ := lenenc_ne_null s.length
  have hread := readLenenc_lenenc h (s ++ rest)
  rw [lenencStr, List.append_assoc]
  rw [hlenenc, List.cons_append] at hread ⊢
  have hmin : min s.length (s ++ rest).length = s.length := by
    rw [List.length_append]
    omega
  rw [readLenencStr, if_neg hb, hread]
  dsimp only
  rw [hmin, List.take_left, List.drop_left]

/-! ## Packets -/

/-- The largest length in a packet header. -/
def maxPacket : Nat := 0xFFFFFF

/-- The default of `max_recv`: 256 MB. -/
def maxRecv : Nat := 256 * 1024 * 1024

open Conn Exec

/-- The loop of `mysql_reassemble`: the payload so far, then the payload and the `seq` of
the last packet. -/
def reassemble : Nat → Bytes → Exec (Conn UInt8) Error (Bytes × UInt8)
  | 0, _ => timeout
  | fuel + 1, payload => do
    let hdr ← recv (ascii "db: connection lost or query timeout") 4
    let len := ofLe (hdr.take 3)
    let seq := hdr.getD 3 0
    if payload.length + len > maxRecv then
      throw (ascii "db mysql: response size exceeded the safety limit (256 MB)")
    else
      let part ←
        (if 0 < len then recv (ascii "db: connection lost reading payload") len else pure [])
      if len < maxPacket then pure (payload ++ part, seq) else reassemble fuel (payload ++ part)

/-- `read_packet`.  The limit is reached after so many packets. -/
def readPacket : Exec (Conn UInt8) Error (Bytes × UInt8) :=
  reassemble (maxRecv / maxPacket + 2) []

/-- `send_packet`: the length is cut to the three bytes of the header. -/
def sendPacket (data : Bytes) (seq : UInt8) : Bytes := toLe 3 data.length ++ seq :: data

/-- A payload in packets. -/
def packets (seq : UInt8) (payload : Bytes) : Bytes :=
  if payload.length < maxPacket then toLe 3 payload.length ++ seq :: payload
  else
    toLe 3 maxPacket ++ seq ::
      (payload.take maxPacket ++ packets (seq + 1) (payload.drop maxPacket))
termination_by payload.length
decreasing_by
  rename_i h
  have hpos : 0 < maxPacket := by decide
  rw [List.length_drop]
  omega

/-- The number of the last packet. -/
def lastSeq (seq : UInt8) (payload : Bytes) : UInt8 :=
  seq + UInt8.ofNat (payload.length / maxPacket)

theorem maxPacket_le : maxPacket ≤ maxRecv := by decide

variable {fuel : Nat} {payload acc : Bytes} {seq : UInt8}

/-- A header says how long its packet is. -/
theorem ofLe_header {n : Nat} (h : n ≤ maxPacket) (seq : UInt8) :
    ofLe ((toLe 3 n ++ [seq]).take 3) = n ∧ (toLe 3 n ++ [seq]).getD 3 0 = seq := by
  refine ⟨(take_toLe (w := 3) [seq] ?_).1, ?_⟩
  · exact Nat.lt_of_le_of_lt h (by decide)
  · have hlen := length_toLe 3 n
    rw [List.getD_eq_getElem?_getD, List.getElem?_append_right (by omega), hlen]
    rfl

/-- One packet: the rest of the loop follows on its bytes. -/
theorem reads_packet {n : Nat} {part more : Bytes} {r : Bytes × UInt8} (hn : n = part.length)
    (hle : n ≤ maxPacket) (hmax : acc.length + n ≤ maxRecv)
    (hrest : Reads (if n < maxPacket then pure (acc ++ part, seq)
      else reassemble fuel (acc ++ part)) more r) :
    Reads (reassemble (fuel + 1) acc) (toLe 3 n ++ seq :: (part ++ more)) r := by
  obtain ⟨hlen, hseq⟩ := ofLe_header hle seq
  have hsplit : toLe 3 n ++ seq :: (part ++ more) = (toLe 3 n ++ [seq]) ++ (part ++ more) := by
    rw [List.append_assoc, List.singleton_append]
  have hheader : (toLe 3 n ++ [seq]).length = 4 := by
    rw [List.length_append, length_toLe, List.length_singleton]
  have hrecv := reads_recv (ascii "db: connection lost or query timeout") (toLe 3 n ++ [seq])
  rw [hheader] at hrecv
  rw [hsplit]
  refine hrecv.bind ?_
  dsimp only
  rw [hlen, hseq, if_neg (Nat.not_lt.mpr hmax)]
  refine Reads.bind ?_ hrest
  split
  · rw [hn]
    exact reads_recv _ part
  · rename_i hzero
    obtain rfl : part = [] := List.length_eq_zero_iff.mp (by omega)
    exact reads_pure []

variable (payload acc seq) in
theorem reads_reassemble {fuel : Nat} (hfuel : payload.length / maxPacket < fuel)
    (hmax : acc.length + payload.length ≤ maxRecv) :
    Reads (reassemble fuel acc) (packets seq payload) (acc ++ payload, lastSeq seq payload) := by
  induction fuel generalizing acc seq payload with
  | zero => exact absurd hfuel (Nat.not_lt_zero _)
  | succ fuel ih =>
    have hpos : 0 < maxPacket := by decide
    rw [packets]
    split
    · rename_i hlt
      have hseq : lastSeq seq payload = seq := by
        rw [lastSeq, Nat.div_eq_of_lt hlt]
        exact UInt8.add_zero seq
      rw [hseq, ← List.append_nil payload]
      refine reads_packet (by rw [List.append_nil]) ?_ ?_ ?_
      · rw [List.append_nil]
        exact Nat.le_of_lt hlt
      · rwa [List.append_nil]
      · rw [List.append_nil, if_pos hlt]
        exact reads_pure _
    · rename_i hge
      have htake : (payload.take maxPacket).length = maxPacket := by
        rw [List.length_take]
        omega
      have hdiv : payload.length / maxPacket = (payload.length - maxPacket) / maxPacket + 1 :=
        Nat.div_eq_sub_div hpos (Nat.le_of_not_lt hge)
      have hseq : lastSeq seq payload = lastSeq (seq + 1) (payload.drop maxPacket) := by
        rw [lastSeq, lastSeq, List.length_drop, hdiv, UInt8.ofNat_add, UInt8.add_assoc,
          UInt8.add_comm 1]
        rfl
      have hrest := ih (payload.drop maxPacket)
        (acc ++ payload.take maxPacket) (seq + 1) (by rw [List.length_drop]; omega)
        (by rw [List.length_append, htake, List.length_drop]; omega)
      rw [List.append_assoc, List.take_append_drop, ← hseq] at hrest
      refine reads_packet htake.symm (Nat.le_refl _) (by omega) ?_
      rw [if_neg (Nat.lt_irrefl _)]
      exact hrest

/-- A payload that was sent in packets is read as it was. -/
theorem reads_readPacket (seq : UInt8) (hmax : payload.length ≤ maxRecv) :
    Reads readPacket (packets seq payload) (payload, lastSeq seq payload) := by
  have hdiv := Nat.div_le_div_right (c := maxPacket) hmax
  have h := reads_reassemble payload [] seq (Nat.lt_succ_of_le (Nat.le_succ_of_le hdiv))
    (by simpa using hmax)
  rwa [List.nil_append] at h

/-! ## One packet for every payload -/

theorem recv_ok {e : Error} {n : Nat} {s bytes : Bytes} {s' : Conn UInt8}
    (h : recv e n (some s) = .ok bytes s') :
    n ≤ s.length ∧ bytes = s.take n ∧ s' = some (s.drop n) := by
  rw [recv] at h
  split at h
  · rename_i hle
    cases h
    exact ⟨hle, rfl, rfl⟩
  · cases h

/-- What one turn of the loop has read. -/
theorem reassemble_ok {s : Bytes} {r : Bytes × UInt8} {s' : Conn UInt8}
    (h : reassemble (fuel + 1) acc (some s) = .ok r s') :
    ∃ part rest, part.length + rest.length + 4 = s.length ∧
      part.length = ofLe (s.take 3) ∧
      ((part.length < maxPacket ∧ r.1 = acc ++ part) ∨
        reassemble fuel (acc ++ part) (some rest) = .ok r s') := by
  rw [reassemble] at h
  obtain ⟨hdr, s₁, hrecv, h⟩ := bind_eq_ok.mp h
  obtain ⟨hlen, rfl, rfl⟩ := recv_ok hrecv
  rw [List.take_take, show min 3 4 = 3 from rfl] at h
  split at h
  · cases h
  · obtain ⟨part, s₂, hpart, h⟩ := bind_eq_ok.mp h
    obtain ⟨rest, rfl, hsum, hpartlen⟩ : ∃ rest, s₂ = some rest ∧
        part.length + rest.length + 4 = s.length ∧ part.length = ofLe (s.take 3) := by
      have hdrop : (s.drop 4).length = s.length - 4 := List.length_drop
      split at hpart
      · obtain ⟨hle, rfl, rfl⟩ := recv_ok hpart
        refine ⟨_, rfl, ?_, ?_⟩
        · simp only [List.length_take, List.length_drop]
          omega
        · rw [List.length_take]
          omega
      · cases hpart
        refine ⟨_, rfl, ?_, ?_⟩
        · rw [List.length_nil]
          omega
        · rw [List.length_nil]
          omega
    refine ⟨part, rest, hsum, hpartlen, ?_⟩
    split at h
    · rename_i hlt
      cases h
      exact .inl ⟨hpartlen ▸ hlt, rfl⟩
    · exact .inr h

/-- A payload is shorter than the bytes that it is read from. -/
theorem length_of_reassemble {s : Bytes} {r : Bytes × UInt8} {s' : Conn UInt8}
    (h : reassemble fuel acc (some s) = .ok r s') : r.1.length + 4 ≤ acc.length + s.length := by
  induction fuel generalizing acc s with
  | zero => cases h
  | succ fuel ih =>
    obtain ⟨part, rest, hsum, -, ⟨-, hr⟩ | hrest⟩ := reassemble_ok h
    · rw [hr, List.length_append]
      omega
    · have hlen := ih hrest
      rw [List.length_append] at hlen
      omega

/-- A payload of `0xFFFFFF` bytes or more is not what is read from its one packet. -/
theorem length_of_sendPacket {data : Bytes} {r : Bytes × UInt8} {s' : Conn UInt8}
    (hlong : maxPacket ≤ data.length)
    (h : readPacket (some (sendPacket data seq)) = .ok r s') : r.1.length < data.length := by
  have hwire : (sendPacket data seq).length = data.length + 4 := by
    rw [sendPacket, List.length_append, length_toLe, List.length_cons]
    omega
  rw [readPacket] at h
  obtain ⟨part, rest, hsum, -, ⟨hlt, hr⟩ | hrest⟩ := reassemble_ok h
  · rw [hr, List.nil_append]
    omega
  · have hlen := length_of_reassemble hrest
    rw [List.nil_append] at hlen
    omega

/-- `mysql_reassemble` gives back what `send_packet` was given for payloads below
`0xFFFFFF` bytes only. -/
theorem readPacket_sendPacket_iff (data : Bytes) (seq : UInt8) :
    readPacket (some (sendPacket data seq)) = .ok (data, seq) (some []) ↔
      data.length < maxPacket := by
  constructor
  · intro h
    by_contra hge
    have hlt := length_of_sendPacket (Nat.le_of_not_lt hge) h
    exact Nat.lt_irrefl _ hlt
  · intro hlt
    have hmax : data.length ≤ maxRecv := Nat.le_trans (Nat.le_of_lt hlt) maxPacket_le
    have hread := reads_readPacket seq hmax
    have hpackets : packets seq data = sendPacket data seq := by rw [packets, if_pos hlt]; rfl
    have hseq : lastSeq seq data = seq := by
      rw [lastSeq, Nat.div_eq_of_lt hlt]
      exact UInt8.add_zero seq
    rw [hpackets, hseq] at hread
    have h := hread []
    rwa [List.append_nil] at h

end Mysql

end Look
