/-
Result sets on the wire, and how the client reads them.

The first part is the protocol: a packet with the number of columns, one for each column, an
EOF packet, one for each row, and an EOF or an ERR packet.  The client tells rows from the
end by the first byte.  `reply_stream` says what it makes of any packets: the rows that it
returns are those before the first packet that looks like the end.
-/
import Look.Mysql.Client

namespace Look

namespace Mysql

/-! ## The protocol -/

structure Column where
  catalog : Bytes
  schema : Bytes
  table : Bytes
  orgTable : Bytes
  name : Bytes
  orgName : Bytes
  charset : UInt16
  length : UInt32
  type : UInt8
  flags : UInt16
  decimals : UInt8

namespace Column

/-- The six names of a column. -/
def names (col : Column) : Bytes :=
  lenencStr col.catalog ++ (lenencStr col.schema ++ (lenencStr col.table ++
    (lenencStr col.orgTable ++ (lenencStr col.name ++ lenencStr col.orgName))))

def payload (col : Column) : Bytes :=
  col.names ++ 0x0C :: (toLe 2 col.charset.toNat ++ (toLe 4 col.length.toNat ++
    col.type :: (toLe 2 col.flags.toNat ++ [col.decimals, 0, 0])))

def info (col : Column) : ColInfo := ⟨col.name, col.type⟩

/-- The flag of unsigned numbers. -/
def unsigned (col : Column) : Bool := col.flags.toNat.testBit 5

end Column

def eofPayload (warnings status : UInt16) : Bytes :=
  0xFE :: (toLe 2 warnings.toNat ++ toLe 2 status.toNat)

/-- What stands behind the rows. -/
inductive Ending where
  | eof (warnings status : UInt16)
  | err (body : Bytes)
deriving DecidableEq

namespace Ending

def payload : Ending → Bytes
  | eof warnings status => eofPayload warnings status
  | err body => 0xFF :: body

def isEof : Ending → Bool
  | eof .. => true
  | err _ => false

end Ending

structure ResultSet (Cell : Type) where
  columns : List Column
  warnings : UInt16
  status : UInt16
  rows : List (List (Option Cell))
  ending : Ending

namespace ResultSet

variable {Cell : Type}

/-- The packets before the rows. -/
def header (set : ResultSet Cell) : List Bytes :=
  lenenc set.columns.length ::
    (set.columns.map Column.payload ++ [eofPayload set.warnings set.status])

def payloads (encode : List (Option Cell) → Bytes) (set : ResultSet Cell) : List Bytes :=
  set.header ++ (set.rows.map encode ++ [set.ending.payload])

/-- There are columns, at most as many as the client takes; every row has one cell for each
of them, and every packet is below the limit of the client. -/
structure Legal (fits : Column → Option Cell → Prop) (encode : List (Option Cell) → Bytes)
    (set : ResultSet Cell) : Prop where
  columns_ne : set.columns ≠ []
  columns_le : set.columns.length ≤ Client.maxColumns
  fits : ∀ row ∈ set.rows, List.Forall₂ fits set.columns row
  short : ∀ p ∈ set.payloads encode, p.length ≤ maxRecv

end ResultSet

/-- Payloads in packets, whose numbers follow each other. -/
def stream : UInt8 → List Bytes → Bytes
  | _, [] => []
  | seq, p :: ps => packets seq p ++ stream (lastSeq seq p + 1) ps

/-! ## A column -/

variable {seq : UInt8} {p stop : Bytes} {ps more : List Bytes} {rest : Bytes}

theorem length_le_lenencStr (s : Bytes) : s.length ≤ (lenencStr s).length := by
  rw [lenencStr, List.length_append]
  exact Nat.le_add_left _ _

theorem readColumn_payload (col : Column) (h : col.payload.length ≤ maxRecv) :
    readColumn col.payload = col.info := by
  have hlt : ∀ {s : Bytes}, (lenencStr s).length ≤ maxRecv → s.length < 2 ^ 64 := by
    intro s hs
    exact Nat.lt_of_le_of_lt (Nat.le_trans (length_le_lenencStr s) hs) (by decide)
  simp only [Column.payload, Column.names, List.length_append] at h
  have hcatalog : col.catalog.length < 2 ^ 64 := hlt (by omega)
  have hschema : col.schema.length < 2 ^ 64 := hlt (by omega)
  have htable : col.table.length < 2 ^ 64 := hlt (by omega)
  have horgTable : col.orgTable.length < 2 ^ 64 := hlt (by omega)
  have hname : col.name.length < 2 ^ 64 := hlt (by omega)
  have horgName : col.orgName.length < 2 ^ 64 := hlt (by omega)
  rw [readColumn, Column.payload, Column.names]
  simp only [List.append_assoc, readLenencStr_lenencStr, hcatalog, hschema, htable, horgTable,
    hname, horgName]
  rfl

/-! ## Packets -/

namespace Client

open Exec

variable {c : Client} {decode : Bytes → DbRow}

/-- The client with these packets to read. -/
def facing (c : Client) (seq : UInt8) (ps : List Bytes) (rest : Bytes) : Client :=
  { c with conn := some (stream seq ps ++ rest) }

variable (seq ps rest c) in
theorem packet_facing (hp : p.length ≤ maxRecv) :
    packet (c.facing seq (p :: ps) rest) = .ok p (c.facing (lastSeq seq p + 1) ps rest) := by
  have hread := reads_readPacket seq hp (stream (lastSeq seq p + 1) ps ++ rest)
  rw [packet, facing, stream, List.append_assoc]
  dsimp only
  rw [hread]
  rfl

variable (seq ps rest c) in
theorem columns_facing {cols : List Column} (h : ∀ col ∈ cols, col.payload.length ≤ maxRecv) :
    ∃ seq', columns cols.length (c.facing seq (cols.map Column.payload ++ ps) rest) =
      .ok (cols.map Column.info) (c.facing seq' ps rest) := by
  induction cols generalizing seq with
  | nil => exact ⟨seq, rfl⟩
  | cons col cols ih =>
    rw [List.forall_mem_cons] at h
    obtain ⟨seq', hcols⟩ := ih (lastSeq seq col.payload + 1) h.2
    refine ⟨seq', ?_⟩
    rw [List.length_cons, columns, bind_apply, List.map_cons, List.cons_append,
      packet_facing _ _ _ _ h.1]
    dsimp only
    rw [bind_apply, hcols]
    dsimp only
    rw [readColumn_payload col h.1]
    rfl

theorem statusOf_of_not_end (h : endOfRows p = false) (inTxn : Bool) : statusOf p inTxn = inTxn := by
  rw [statusOf, if_neg]
  rintro ⟨-, -, hfirst⟩
  cases p with
  | nil => cases h
  | cons b p =>
    obtain rfl : b = 0xFE := hfirst
    cases h

variable (seq more rest c) in
/-- The rows are the packets before the first that looks like the end. -/
theorem rowLoop_facing {fuel : Nat} (hps : ∀ p ∈ ps, endOfRows p = false)
    (hshort : ∀ p ∈ ps, p.length ≤ maxRecv) (hstop : endOfRows stop)
    (hlen : stop.length ≤ maxRecv) (hfuel : ps.length < fuel) :
    ∃ seq', rowLoop decode fuel (c.facing seq (ps ++ stop :: more) rest) =
      .ok (ps.map decode)
        ({ c with inTxn := statusOf stop c.inTxn }.facing seq' more rest) := by
  induction ps generalizing seq fuel with
  | nil =>
    obtain ⟨fuel, rfl⟩ := Nat.exists_eq_succ_of_ne_zero (Nat.ne_of_gt hfuel)
    refine ⟨lastSeq seq stop + 1, ?_⟩
    rw [rowLoop, List.nil_append, bind_apply, packet_facing _ _ _ _ hlen]
    dsimp only
    rw [bind_apply, modify_apply]
    dsimp only
    rw [if_pos hstop]
    rfl
  | cons p ps ih =>
    obtain ⟨fuel, rfl⟩ := Nat.exists_eq_succ_of_ne_zero (Nat.ne_of_gt (Nat.zero_lt_of_lt hfuel))
    rw [List.forall_mem_cons] at hps hshort
    obtain ⟨seq', hrows⟩ := ih (lastSeq seq p + 1) hps.2 hshort.2
      (Nat.lt_of_succ_lt_succ hfuel)
    have hnot : ¬ (endOfRows p = true) := Bool.eq_false_iff.mp hps.1
    have hstatus := statusOf_of_not_end hps.1 c.inTxn
    refine ⟨seq', ?_⟩
    rw [rowLoop, List.cons_append, bind_apply, packet_facing _ _ _ _ hshort.1]
    dsimp only
    rw [bind_apply, modify_apply]
    dsimp only [facing] at hrows ⊢
    rw [if_neg hnot, hstatus, bind_apply, hrows]
    rfl

theorem length_le_stream (ps : List Bytes) (seq : UInt8) : ps.length ≤ (stream seq ps).length := by
  induction ps generalizing seq with
  | nil => exact Nat.zero_le _
  | cons p ps ih =>
    have hpacket : 0 < (packets seq p).length := by
      rw [packets]
      split <;> simp
    have hrest := ih (lastSeq seq p + 1)
    rw [stream, List.length_append, List.length_cons]
    omega

variable (seq more rest c decode) in
theorem rows_facing (hps : ∀ p ∈ ps, endOfRows p = false)
    (hshort : ∀ p ∈ ps, p.length ≤ maxRecv) (hstop : endOfRows stop)
    (hlen : stop.length ≤ maxRecv) :
    ∃ seq', rows decode (c.facing seq (ps ++ stop :: more) rest) =
      .ok (ps.map decode)
        ({ c with inTxn := statusOf stop c.inTxn }.facing seq' more rest) := by
  refine rowLoop_facing seq more rest c hps hshort hstop hlen ?_
  have hstream := length_le_stream (ps ++ stop :: more) seq
  rw [List.length_append, List.length_cons] at hstream
  rw [facing, Option.getD_some, List.length_append]
  omega

/-! ## Replies -/

variable {Cell : Type} {empty : Error} {error : Bytes → Error}
  {decodeRow : List ColInfo → Bytes → DbRow} {set : ResultSet Cell}

/-- The first byte of a number of columns is none of an OK or ERR packet. -/
theorem head_lenenc {n : Nat} (hpos : n ≠ 0) (hle : n ≤ maxColumns) :
    ∃ b, (lenenc n).head? = some b ∧ b ≠ 0xFF ∧ b ≠ 0x00 := by
  have hn : n < 2 ^ 16 := Nat.lt_of_le_of_lt hle (by decide)
  rw [lenenc, if_pos hn]
  split
  · rename_i hlt
    have hval : (UInt8.ofNat n).toNat = n := by
      rw [UInt8.toNat_ofNat', Nat.mod_eq_of_lt (by omega)]
    refine ⟨_, rfl, ?_, ?_⟩
    · intro heq
      rw [heq] at hval
      exact absurd hlt (by rw [← hval]; decide)
    · intro heq
      rw [heq] at hval
      exact hpos hval.symm
  · exact ⟨_, rfl, by decide, by decide⟩

variable (seq more rest c empty error decodeRow) in
theorem reply_facing (hne : set.columns ≠ []) (hle : set.columns.length ≤ maxColumns)
    (hheader : ∀ p ∈ set.header, p.length ≤ maxRecv) (hps : ∀ p ∈ ps, endOfRows p = false)
    (hshort : ∀ p ∈ ps, p.length ≤ maxRecv) (hstop : endOfRows stop)
    (hlen : stop.length ≤ maxRecv) :
    ∃ seq', reply empty error decodeRow
        (c.facing seq (set.header ++ (ps ++ stop :: more)) rest) =
      .ok (ps.map (decodeRow (set.columns.map Column.info)))
        ({ c with inTxn := statusOf stop c.inTxn }.facing seq' more rest) := by
  have hcount : set.columns.length ≠ 0 := fun h => hne (List.length_eq_zero_iff.mp h)
  obtain ⟨b, hb, herr, hok⟩ := head_lenenc hcount hle
  have hread := readLenenc_lenenc (n := set.columns.length)
    (Nat.lt_of_le_of_lt hle (by decide)) []
  rw [List.append_nil] at hread
  rw [ResultSet.header, List.forall_mem_cons, List.forall_mem_append, List.forall_mem_map] at hheader
  obtain ⟨hfirst, hcols, heof⟩ := hheader
  obtain ⟨seq₁, hcolumns⟩ := columns_facing (lastSeq seq (lenenc set.columns.length) + 1)
    (eofPayload set.warnings set.status :: (ps ++ stop :: more)) rest c hcols
  have hpacket := packet_facing seq₁ (ps ++ stop :: more) rest c
    (heof _ List.mem_cons_self)
  obtain ⟨seq₂, hrows⟩ := rows_facing (lastSeq seq₁ (eofPayload set.warnings set.status) + 1)
    more rest c (decodeRow (set.columns.map Column.info)) hps hshort hstop hlen
  refine ⟨seq₂, ?_⟩
  rw [reply, ResultSet.header, List.cons_append, bind_apply, packet_facing _ _ _ _ hfirst]
  dsimp only
  rw [hb]
  dsimp only
  rw [if_neg herr, if_neg hok, resultSet, hread]
  dsimp only
  rw [if_neg (Nat.not_lt.mpr hle), bind_apply, List.append_assoc, List.singleton_append, hcolumns]
  dsimp only
  rw [bind_apply, hpacket]
  exact hrows

end Client

end Mysql

end Look
