/-
`COM_STMT_EXECUTE`: the parameters of a statement on their way to the server.

`stmtExecute` is what the client writes and `decodeExecute` is how a server reads it by the
protocol.  The client writes one packet, so that the server gets the parameters exactly
when the payload is shorter than `0xFFFFFF` bytes, far below the limit of 64 MB that the
client checks.
-/
import Mathlib
import Look.Db.Result
import Look.Lib.Bitmap
import Look.Mysql.Wire

namespace Look

namespace Mysql

structure StmtMeta where
  id : UInt32
  numCols : UInt16
  numParams : UInt16

/-! ## What the client writes -/

def isNull : DbParam → Bool
  | .null => true
  | _ => false

def textSize : DbParam → Nat
  | .text s => s.length
  | _ => 0

def typeCode : DbParam → UInt8
  | .int _ => 0x08
  | .float _ => 0x05
  | .bool _ => 0x01
  | .null => 0xFE
  | .text _ => 0xFE

/-- The length before a text: at most three bytes for it. -/
def textLength (len : Nat) : Bytes :=
  if len < 251 then [UInt8.ofNat len]
  else if len < 65536 then 0xFC :: toLe 2 len
  else 0xFD :: toLe 3 len

def value : DbParam → Bytes
  | .null => []
  | .int i => toLe 8 i.toUInt64.toNat
  | .float d => toLe 8 d.bits.toNat
  | .bool b => [if b then 1 else 0]
  | .text s => textLength s.length ++ s

/-- The payload that `stmt_execute` builds. -/
def executePayload (m : StmtMeta) (params : List DbParam) : Bytes :=
  0x17 :: (toLe 4 m.id.toNat ++ 0x00 :: (toLe 4 1 ++
    if 0 < params.length then
      bitmap 0 (params.map isNull) ++ 0x01 ::
        (params.flatMap (fun p => [typeCode p, 0x00]) ++ params.flatMap value)
    else [0x01]))

/-- `MYSQL_MAX_PACKET`: 64 MB. -/
def mysqlMaxPacket : Nat := 64 * 1024 * 1024

/-- What `stmt_execute` sends. -/
def stmtExecute (m : StmtMeta) (params : List DbParam) : Except Error Bytes :=
  if mysqlMaxPacket < (params.map textSize).sum then
    .error (ascii ("db mysql: total parameter size exceeds the max_allowed_packet limit " ++
      "(64 MB)"))
  else .ok (sendPacket (executePayload m params) 0)

/-! ## What the server reads -/

/-- A length-encoded number of the protocol. -/
def decodeLenenc : Bytes → Option (Nat × Bytes)
  | [] => none
  | first :: p =>
    if first < 0xFB then some (first.toNat, p)
    else if first = 0xFC then if 2 ≤ p.length then some (ofLe (p.take 2), p.drop 2) else none
    else if first = 0xFD then if 3 ≤ p.length then some (ofLe (p.take 3), p.drop 3) else none
    else if first = 0xFE then if 8 ≤ p.length then some (ofLe (p.take 8), p.drop 8) else none
    else none

def decodeText (bs : Bytes) : Option (Bytes × Bytes) := do
  let (len, rest) ← decodeLenenc bs
  if len ≤ rest.length then some (rest.take len, rest.drop len) else none

/-- A value of eight bytes. -/
def decodeWord (bs : Bytes) : Option (Nat × Bytes) :=
  if 8 ≤ bs.length then some (ofLe (bs.take 8), bs.drop 8) else none

/-- A value of one byte. -/
def decodeTiny : Bytes → Option (UInt8 × Bytes)
  | [] => none
  | b :: rest => some (b, rest)

def decodeValue (type : UInt8) (bs : Bytes) : Option (DbParam × Bytes) :=
  if type = 0x08 then (decodeWord bs).map fun (n, rest) => (.int (Int64.ofNat n), rest)
  else if type = 0x05 then
    (decodeWord bs).map fun (n, rest) => (.float ⟨BitVec.ofNat 64 n⟩, rest)
  else if type = 0x01 then (decodeTiny bs).map fun (b, rest) => (.bool (b != 0), rest)
  else (decodeText bs).map fun (s, rest) => (.text s, rest)

/-- The values behind the type codes; a NULL has none. -/
def decodeValues : List (Bool × UInt8) → Bytes → Option (List DbParam)
  | [], _ => some []
  | (true, _) :: types, bs => (decodeValues types bs).map (DbParam.null :: ·)
  | (false, type) :: types, bs => do
    let (p, rest) ← decodeValue type bs
    let ps ← decodeValues types rest
    some (p :: ps)

/-- The first bytes of the two-byte type codes. -/
def typeCodes : Nat → Bytes → List UInt8
  | 0, _ => []
  | n + 1, bs => bs.headD 0 :: typeCodes n (bs.drop 2)

/-- `COM_STMT_EXECUTE` of a statement with `n` placeholders: its id and its parameters. -/
def decodeExecute (n : Nat) (payload : Bytes) : Option (Nat × List DbParam) :=
  let params := payload.drop 10
  let size := (n + 7) / 8
  let id := ofLe ((payload.drop 1).take 4)
  if payload.length < 10 ∨ payload.headD 0 ≠ 0x17 then none
  else if n = 0 then some (id, [])
  else if params.length < size + 1 + 2 * n ∨ params.getD size 0 ≠ 0x01 then none
  else
    let nulls := (List.range n).map (bitAt params)
    let types := typeCodes n (params.drop (size + 1))
    (decodeValues (nulls.zip types) (params.drop (size + 1 + 2 * n))).map (id, ·)

/-- The server puts the packets together and reads the command. -/
def serverReads (n : Nat) (wire : Bytes) : Option (Nat × List DbParam) :=
  match readPacket (some wire) with
  | .ok (payload, _) _ => decodeExecute n payload
  | _ => none

/-! ## Reading what was written -/

variable {params : List DbParam} {bs rest : Bytes}

theorem decodeLenenc_textLength {len : Nat} (h : len < 2 ^ 24) (rest : Bytes) :
    decodeLenenc (textLength len ++ rest) = some (len, rest) := by
  have hlen : ∀ w, w ≤ (toLe w len ++ rest).length := by
    intro w
    rw [List.length_append, length_toLe]
    exact Nat.le_add_right _ _
  rw [textLength]
  split
  · rename_i hn
    have hfirst : UInt8.ofNat len < 0xFB := by
      rw [UInt8.lt_iff_toNat_lt, UInt8.toNat_ofNat', Nat.mod_eq_of_lt (by omega)]
      exact hn
    rw [List.singleton_append, decodeLenenc, if_pos hfirst, UInt8.toNat_ofNat',
      Nat.mod_eq_of_lt (by omega)]
  · split
    · rename_i hn
      obtain ⟨hval, hrest⟩ := take_toLe (w := 2) rest (n := len) (by omega)
      rw [List.cons_append, decodeLenenc, if_neg (by decide), if_pos rfl, if_pos (hlen 2), hval,
        hrest]
    · obtain ⟨hval, hrest⟩ := take_toLe (w := 3) rest (n := len) (by omega)
      rw [List.cons_append, decodeLenenc, if_neg (by decide), if_neg (by decide), if_pos rfl,
        if_pos (hlen 3), hval, hrest]

theorem decodeText_text {s : Bytes} (h : s.length < 2 ^ 24) (rest : Bytes) :
    decodeText (textLength s.length ++ s ++ rest) = some (s, rest) := by
  have hle : s.length ≤ (s ++ rest).length := by
    rw [List.length_append]
    exact Nat.le_add_right _ _
  rw [decodeText, List.append_assoc, decodeLenenc_textLength h, Option.bind_eq_bind,
    Option.bind_some]
  dsimp only
  rw [if_pos hle, List.take_left, List.drop_left]

theorem decodeWord_toLe {n : Nat} (h : n < 2 ^ 64) (rest : Bytes) :
    decodeWord (toLe 8 n ++ rest) = some (n, rest) := by
  obtain ⟨hval, hrest⟩ := take_toLe (w := 8) rest (n := n) (by omega)
  have hle : 8 ≤ (toLe 8 n ++ rest).length := by
    rw [List.length_append, length_toLe]
    exact Nat.le_add_right _ _
  rw [decodeWord, if_pos hle, hval, hrest]

theorem decodeValue_value {p : DbParam} (hnull : isNull p = false) (h : textSize p < 2 ^ 24)
    (rest : Bytes) : decodeValue (typeCode p) (value p ++ rest) = some (p, rest) := by
  cases p with
  | null => cases hnull
  | int i =>
    have hword := decodeWord_toLe (UInt64.toNat_lt i.toUInt64) rest
    have hval : Int64.ofNat i.toUInt64.toNat = i :=
      congrArg Int64.ofUInt64 (UInt64.ofNat_toNat (x := i.toUInt64))
    rw [decodeValue, typeCode, if_pos rfl, value, hword, Option.map_some]
    exact congrArg (fun i => some (DbParam.int i, rest)) hval
  | float d =>
    have hword := decodeWord_toLe d.bits.isLt rest
    have hval : BitVec.ofNat 64 d.bits.toNat = d.bits := by
      rw [BitVec.ofNat_toNat, BitVec.setWidth_eq]
    rw [decodeValue, typeCode, if_neg (by decide), if_pos rfl, value, hword,
      Option.map_some]
    exact congrArg (fun bits => some (DbParam.float ⟨bits⟩, rest)) hval
  | text s =>
    rw [decodeValue, typeCode, if_neg (by decide), if_neg (by decide), if_neg (by decide),
      value, decodeText_text h, Option.map_some]
  | bool b =>
    rw [decodeValue, typeCode, if_neg (by decide), if_neg (by decide), if_pos rfl]
    cases b <;> rfl

theorem decodeValues_values (h : ∀ p ∈ params, textSize p < 2 ^ 24) :
    decodeValues (params.map fun p => (isNull p, typeCode p)) (params.flatMap value) =
      some params := by
  induction params with
  | nil => rfl
  | cons p params ih =>
    rw [List.forall_mem_cons] at h
    rw [List.map_cons, List.flatMap_cons]
    cases hnull : isNull p with
    | true =>
      obtain rfl : p = .null := by
        cases p with
        | null => rfl
        | _ => cases hnull
      rw [decodeValues, value, List.nil_append, ih h.2]
      rfl
    | false =>
      rw [decodeValues, decodeValue_value hnull h.1, Option.bind_eq_bind, Option.bind_some]
      dsimp only
      rw [ih h.2]
      rfl

theorem typeCodes_append (params : List DbParam) (rest : Bytes) :
    typeCodes params.length (params.flatMap (fun p => [typeCode p, 0x00]) ++ rest) =
      params.map typeCode := by
  induction params with
  | nil => rfl
  | cons p params ih =>
    rw [List.length_cons, typeCodes, List.flatMap_cons, List.map_cons, ← ih]
    rfl

/-- The bits of the NULL bitmap, whatever stands behind it. -/
theorem nulls_bitmap (flags : List Bool) (rest : Bytes) :
    (List.range flags.length).map (bitAt (bitmap 0 flags ++ rest)) = flags := by
  refine List.ext_getElem ?_ ?_
  · rw [List.length_map, List.length_range]
  · intro i hi hi'
    have hbyte : i / 8 < (bitmap 0 flags).length := by
      rw [length_bitmap]
      omega
    have hbit : bitAt (bitmap 0 flags) (i + 0) = flags[i] := bitAt_bitmap hi'
    rw [bitAt, List.getD_eq_getElem?_getD, Nat.add_zero] at hbit
    rw [List.getElem_map, List.getElem_range, bitAt, List.getD_eq_getElem?_getD,
      List.getElem?_append_left hbyte]
    exact hbit

/-! ## Size -/

def valueSize : DbParam → Nat
  | .null => 0
  | .int _ => 8
  | .float _ => 8
  | .bool _ => 1
  | .text s => (if s.length < 251 then 1 else if s.length < 65536 then 3 else 4) + s.length

/-- The size of the payload. -/
def executeSize (params : List DbParam) : Nat :=
  if 0 < params.length then
    10 + (params.length + 7) / 8 + 1 + 2 * params.length + (params.map valueSize).sum
  else 11

theorem length_textLength (len : Nat) :
    (textLength len).length = if len < 251 then 1 else if len < 65536 then 3 else 4 := by
  rw [textLength]
  split
  · rfl
  · split
    · rfl
    · rfl

theorem length_value (p : DbParam) : (value p).length = valueSize p := by
  cases p with
  | text s => rw [value, List.length_append, length_textLength, valueSize]
  | _ => rfl

theorem length_values (params : List DbParam) :
    (params.flatMap value).length = (params.map valueSize).sum := by
  rw [List.length_flatMap]
  exact congrArg List.sum (List.map_congr_left fun p _ => length_value p)

theorem length_typeCodes (params : List DbParam) :
    (params.flatMap fun p => [typeCode p, 0x00]).length = 2 * params.length := by
  induction params with
  | nil => rfl
  | cons p params ih =>
    rw [List.flatMap_cons, List.length_append, ih, List.length_cons]
    exact Nat.add_comm _ _

theorem length_executePayload (m : StmtMeta) (params : List DbParam) :
    (executePayload m params).length = executeSize params := by
  rw [executePayload, executeSize]
  split
  · simp only [List.length_cons, List.length_append, length_toLe, length_bitmap, List.length_map,
      length_typeCodes, length_values]
    omega
  · simp only [List.length_cons, List.length_append, length_toLe, List.length_nil]

theorem textSize_le (p : DbParam) : textSize p ≤ valueSize p := by
  cases p with
  | text s => exact Nat.le_add_left _ _
  | _ => exact Nat.zero_le _

/-- A text is shorter than the payload. -/
theorem textSize_le_executeSize {p : DbParam} (h : p ∈ params) : textSize p ≤ executeSize params := by
  have hpos : 0 < params.length := List.length_pos_of_mem h
  have hsum : valueSize p ≤ (params.map valueSize).sum :=
    List.single_le_sum (fun _ _ => Nat.zero_le _) _ (List.mem_map_of_mem h)
  have hle := textSize_le p
  rw [executeSize, if_pos hpos]
  omega

/-! ## The server gets what was sent -/

theorem decodeExecute_executePayload (m : StmtMeta) (h : ∀ p ∈ params, textSize p < 2 ^ 24) :
    decodeExecute params.length (executePayload m params) = some (m.id.toNat, params) := by
  have hid : ofLe (((executePayload m params).drop 1).take 4) = m.id.toNat := by
    have hlt : m.id.toNat < 256 ^ 4 := m.id.toNat_lt
    exact (take_toLe (w := 4) _ hlt).1
  have hlen : ¬ ((executePayload m params).length < 10 ∨
      (executePayload m params).headD 0 ≠ 0x17) := by
    rw [length_executePayload, not_or, executeSize]
    refine ⟨?_, not_not_intro rfl⟩
    split <;> omega
  rw [decodeExecute]
  dsimp only
  rw [hid, if_neg hlen]
  cases hparams : params with
  | nil => rfl
  | cons p ps =>
    rw [← hparams]
    have hpos : 0 < params.length := by rw [hparams]; exact Nat.succ_pos _
    have hbody : (executePayload m params).drop 10 = bitmap 0 (params.map isNull) ++
        0x01 :: (params.flatMap (fun p => [typeCode p, 0x00]) ++ params.flatMap value) := by
      rw [executePayload, if_pos hpos]
      rfl
    have hsize : (bitmap 0 (params.map isNull)).length = (params.length + 7) / 8 := by
      rw [length_bitmap, List.length_map]
    have hflag : (bitmap 0 (params.map isNull) ++ (0x01 : UInt8) ::
        (params.flatMap (fun p => [typeCode p, 0x00]) ++ params.flatMap value)).getD
          ((params.length + 7) / 8) 0 = 0x01 := by
      rw [List.getD_eq_getElem?_getD, ← hsize, List.getElem?_append_right (Nat.le_refl _),
        Nat.sub_self]
      rfl
    have htypes : (bitmap 0 (params.map isNull) ++ (0x01 : UInt8) ::
        (params.flatMap (fun p => [typeCode p, 0x00]) ++ params.flatMap value)).drop
          ((params.length + 7) / 8 + 1) =
        params.flatMap (fun p => [typeCode p, 0x00]) ++ params.flatMap value := by
      rw [← hsize, List.drop_append, Nat.add_sub_cancel_left, List.drop_of_length_le]
      · rfl
      · exact Nat.le_succ _
    have hvalues : (bitmap 0 (params.map isNull) ++ (0x01 : UInt8) ::
        (params.flatMap (fun p => [typeCode p, 0x00]) ++ params.flatMap value)).drop
          ((params.length + 7) / 8 + 1 + 2 * params.length) = params.flatMap value := by
      rw [← List.drop_drop, htypes, ← length_typeCodes, List.drop_left]
    have hnulls := nulls_bitmap (params.map isNull) ((0x01 : UInt8) ::
      (params.flatMap (fun p => [typeCode p, 0x00]) ++ params.flatMap value))
    rw [List.length_map] at hnulls
    rw [if_neg (Nat.ne_of_gt hpos), hbody, hflag, if_neg, hnulls, htypes, hvalues,
      typeCodes_append, List.zip_map', decodeValues_values h]
    · rfl
    · rw [not_or]
      refine ⟨?_, not_not_intro rfl⟩
      simp only [List.length_append, List.length_cons, hsize, length_typeCodes]
      omega

/-! ## What is read needs its bytes -/

theorem length_of_decodeLenenc {len : Nat} (h : decodeLenenc bs = some (len, rest)) :
    (textLength len).length + rest.length ≤ bs.length := by
  rw [length_textLength]
  cases bs with
  | nil => cases h
  | cons first p =>
    have htake : ∀ w, w ≤ p.length → ofLe (p.take w) < 256 ^ w := by
      intro w hw
      have hlt := ofLe_lt (p.take w)
      rwa [List.length_take, Nat.min_eq_left hw] at hlt
    rw [decodeLenenc] at h
    rw [List.length_cons]
    split at h
    · rename_i hfirst
      cases h
      have hsmall : first.toNat < 251 := UInt8.lt_iff_toNat_lt.mp hfirst
      rw [if_pos hsmall]
      omega
    · split at h
      · split at h
        · rename_i hle
          cases h
          have hlt : ofLe (p.take 2) < 65536 := htake 2 hle
          rw [List.length_drop]
          split
          · omega
          · omega
        · cases h
      · split at h
        · split at h
          · cases h
            rw [List.length_drop]
            split
            · omega
            · split <;> omega
          · cases h
        · split at h
          · split at h
            · cases h
              rw [List.length_drop]
              split
              · omega
              · split <;> omega
            · cases h
          · cases h

theorem length_of_decodeValue {type : UInt8} {p : DbParam}
    (h : decodeValue type bs = some (p, rest)) : (value p).length + rest.length ≤ bs.length := by
  rw [decodeValue] at h
  have hword : ∀ {n rest}, decodeWord bs = some (n, rest) → 8 + rest.length ≤ bs.length := by
    intro n rest hn
    rw [decodeWord] at hn
    split at hn
    · cases hn
      rw [List.length_drop]
      omega
    · cases hn
  split at h
  · obtain ⟨⟨n, r⟩, hn, heq⟩ := Option.map_eq_some_iff.mp h
    cases heq
    exact hword hn
  · split at h
    · obtain ⟨⟨n, r⟩, hn, heq⟩ := Option.map_eq_some_iff.mp h
      cases heq
      exact hword hn
    · split at h
      · obtain ⟨⟨b, r⟩, hb, heq⟩ := Option.map_eq_some_iff.mp h
        cases heq
        cases bs with
        | nil => cases hb
        | cons b' r' =>
          cases hb
          exact Nat.le_of_eq (Nat.add_comm _ _)
      · obtain ⟨⟨s, r⟩, hs, heq⟩ := Option.map_eq_some_iff.mp h
        cases heq
        rw [decodeText] at hs
        obtain ⟨⟨len, r'⟩, hlen, hs⟩ := Option.bind_eq_some_iff.mp hs
        have hle := length_of_decodeLenenc hlen
        dsimp only at hs
        split at hs
        · rename_i hfits
          cases hs
          have htake : (r'.take len).length = len := by
            rw [List.length_take, Nat.min_eq_left hfits]
          rw [value, List.length_append, htake, List.length_drop]
          omega
        · cases hs

theorem length_of_decodeValues {types : List (Bool × UInt8)}
    (h : decodeValues types bs = some params) :
    (params.flatMap value).length ≤ bs.length := by
  induction types generalizing bs params with
  | nil =>
    cases h
    exact Nat.zero_le _
  | cons t types ih =>
    obtain ⟨null, type⟩ := t
    cases null with
    | true =>
      obtain ⟨ps, hps, rfl⟩ := Option.map_eq_some_iff.mp h
      rw [List.flatMap_cons, value, List.nil_append]
      exact ih hps
    | false =>
      rw [decodeValues] at h
      obtain ⟨⟨p, r⟩, hp, h⟩ := Option.bind_eq_some_iff.mp h
      obtain ⟨ps, hps, h⟩ := Option.bind_eq_some_iff.mp h
      cases h
      have hvalue := length_of_decodeValue hp
      have hrest := ih hps
      rw [List.flatMap_cons, List.length_append]
      omega

/-- A payload with these parameters has at least the size of the client's. -/
theorem length_of_decodeExecute {payload : Bytes} {id : Nat}
    (h : decodeExecute params.length payload = some (id, params)) :
    params = [] ∨ executeSize params ≤ payload.length := by
  rw [decodeExecute] at h
  split at h
  · cases h
  · split at h
    · rename_i hzero
      exact .inl (List.length_eq_zero_iff.mp hzero)
    · rename_i hpos
      split at h
      · cases h
      · rename_i hlen
        obtain ⟨ps, hps, heq⟩ := Option.map_eq_some_iff.mp h
        obtain rfl : ps = params := congrArg Prod.snd heq
        have hvalues := length_of_decodeValues hps
        rw [not_or, Nat.not_lt, List.length_drop] at hlen
        rw [length_values, List.length_drop, List.length_drop] at hvalues
        rw [executeSize, if_pos (Nat.pos_of_ne_zero hpos)]
        exact .inr (by omega)

/-! ## The parameters that arrive -/

/-- A payload of `0xFFFFFF` bytes or more does not arrive. -/
theorem not_decoded_of_long (m : StmtMeta) (h : maxPacket ≤ executeSize params) :
    serverReads params.length (sendPacket (executePayload m params) 0) ≠
      some (m.id.toNat, params) := by
  intro hreads
  have hsize := length_executePayload m params
  rw [serverReads] at hreads
  split at hreads
  · rename_i payload seq _ hread
    have hlt := length_of_sendPacket (by rw [hsize]; exact h) hread
    rcases length_of_decodeExecute hreads with rfl | hle
    · exact absurd h (by decide)
    · rw [hsize] at hlt
      exact absurd hle (Nat.not_le.mpr hlt)
  · cases hreads

/-- For every statement and all parameters that pass the check of 64 MB: the server gets
the parameters exactly when the payload is shorter than `0xFFFFFF` bytes, and
`mysql_reassemble` gives back what `send_packet` was given exactly for these lengths. -/
theorem execute_decoded_iff (m : StmtMeta) (params : List DbParam)
    (hcheck : (params.map textSize).sum ≤ mysqlMaxPacket) :
    ∃ wire, stmtExecute m params = .ok wire ∧
      (serverReads params.length wire = some (m.id.toNat, params) ↔
        executeSize params < maxPacket) ∧
      ∀ data seq, readPacket (some (sendPacket data seq)) = .ok (data, seq) (some []) ↔
        data.length < maxPacket := by
  refine ⟨_, if_neg (Nat.not_lt.mpr hcheck), ?_, readPacket_sendPacket_iff⟩
  constructor
  · intro hreads
    by_contra hlong
    exact not_decoded_of_long m (Nat.le_of_not_lt hlong) hreads
  · intro hlt
    have htext : ∀ p ∈ params, textSize p < 2 ^ 24 := by
      intro p hp
      have hle := textSize_le_executeSize hp
      exact Nat.lt_of_le_of_lt hle (Nat.lt_trans hlt (by decide))
    have hread := (readPacket_sendPacket_iff (executePayload m params) 0).mpr
      (by rwa [length_executePayload])
    rw [serverReads, hread]
    exact decodeExecute_executePayload m htext

theorem execute_decoded_three :
    ∃ wire, stmtExecute ⟨7, 0, 3⟩ [.int (-1), .null, .text [104, 105]] = .ok wire ∧
      serverReads 3 wire = some (7, [.int (-1), .null, .text [104, 105]]) := by
  obtain ⟨wire, hwire, hreads, -⟩ :=
    execute_decoded_iff ⟨7, 0, 3⟩ [.int (-1), .null, .text [104, 105]] (by decide)
  exact ⟨wire, hwire, hreads.mpr (by decide)⟩

def longText : Bytes := List.replicate (2 ^ 24) 65

/-- A text of 16 MB passes the check and does not arrive. -/
theorem long_text_lost :
    ∃ wire, stmtExecute ⟨1, 0, 1⟩ [.text longText] = .ok wire ∧
      serverReads 1 wire ≠ some (1, [.text longText]) := by
  have hlen : longText.length = 2 ^ 24 := List.length_replicate
  generalize longText = s at hlen ⊢
  have hcheck : ([DbParam.text s].map textSize).sum ≤ mysqlMaxPacket := by
    rw [List.map_singleton, List.sum_singleton, textSize, hlen]
    decide
  have hlong : maxPacket ≤ executeSize [.text s] := by
    have hle := textSize_le_executeSize (List.mem_singleton.mpr (rfl : DbParam.text s = .text s))
    rw [textSize, hlen] at hle
    exact Nat.le_trans (by decide) hle
  exact ⟨_, if_neg (Nat.not_lt.mpr hcheck), not_decoded_of_long ⟨1, 0, 1⟩ hlong⟩

end Mysql

end Look
