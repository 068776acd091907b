/-
Which result sets `query` and `stmt_execute` return as they were sent.

The end of the rows is told from a row by the first byte.  In a text row that byte is the
length prefix of the first cell, and a cell of `2 ^ 24` bytes has the prefix of an EOF
packet.  An ERR packet ends the rows like an EOF packet.  In a binary row the cells are not
read by the column's flags: a negative number of less than eight bytes, an unsigned one from
`2 ^ 63` on and a BIT are read as something else.
-/
import Mathlib.Algebra.Group.Int.Defs
import Mathlib.Algebra.Group.Nat.Defs
import Mathlib.Data.List.TakeWhile
import Look.Mysql.Cells

namespace Look

namespace Mysql

open Exec

/-! ## Any rows -/

/-- What is asked of a reply: the rows when the set ends with EOF, and the connection then
stands behind the set; an error when it ends with ERR. -/
def Answers {Cell : Type} (set : ResultSet Cell) (rows : List DbRow) (rest : Bytes)
    (r : Res Client Error (List DbRow)) : Prop :=
  match set.ending with
  | .eof .. => ∃ c, r = .ok rows c ∧ c.conn = some rest
  | .err _ => ∃ e c, r = .error e c

section Rows

variable {Cell : Type} {set : ResultSet Cell} {fits : Column → Option Cell → Prop}
  {encode : List (Option Cell) → Bytes} {empty : Error} {error : Bytes → Error}
  {decode : List ColInfo → Bytes → DbRow} {c : Client} {seq : UInt8} {rest : Bytes}
  {values : List (Option Cell) → DbRow}

theorem end_ending (ending : Ending) : endOfRows ending.payload := by
  cases ending with
  | eof warnings status => rfl
  | err body => rfl

variable (empty error decode c seq rest) in
/-- The rows before the first that looks like the end are returned, whatever the end is. -/
theorem reply_set (h : set.Legal fits encode) :
    ∃ c', Client.reply empty error decode (c.facing seq (set.payloads encode) rest) =
        .ok (((set.rows.map encode).takeWhile (!endOfRows ·)).map
          (decode (set.columns.map Column.info))) c' ∧
      ((∀ row ∈ set.rows, endOfRows (encode row) = false) → c'.conn = some rest) := by
  have hshort := h.short
  rw [ResultSet.payloads, List.forall_mem_append, List.forall_mem_append,
    List.forall_mem_singleton] at hshort
  obtain ⟨hheader, hrows, hending⟩ := hshort
  have hkept : ∀ p ∈ (set.rows.map encode).takeWhile (!endOfRows ·), endOfRows p = false :=
    fun p hp => by simpa using List.mem_takeWhile_imp hp
  have hkeptShort : ∀ p ∈ (set.rows.map encode).takeWhile (!endOfRows ·), p.length ≤ maxRecv :=
    fun p hp => hrows p (List.takeWhile_subset _ hp)
  have hsplit := List.takeWhile_append_dropWhile (p := (!endOfRows ·)) (l := set.rows.map encode)
  cases hrest : (set.rows.map encode).dropWhile (!endOfRows ·) with
  | nil =>
    obtain ⟨seq', hreply⟩ := Client.reply_facing seq [] rest c empty error decode h.columns_ne
      h.columns_le hheader hkept hkeptShort (end_ending set.ending) hending
    rw [hrest, List.append_nil] at hsplit
    rw [hsplit] at hreply ⊢
    exact ⟨_, hreply, fun _ => rfl⟩
  | cons stop more =>
    have hstop : stop ∈ set.rows.map encode := by
      rw [← hsplit, hrest]
      exact List.mem_append_right _ List.mem_cons_self
    have hend : endOfRows stop = true := by
      have hhead := List.head?_dropWhile_not (!endOfRows ·) (set.rows.map encode)
      rw [hrest] at hhead
      simpa using hhead
    obtain ⟨seq', hreply⟩ := Client.reply_facing seq (more ++ [set.ending.payload])
      rest c empty error decode h.columns_ne h.columns_le hheader hkept hkeptShort hend
      (hrows stop hstop)
    have hpayloads : set.payloads encode = set.header ++
        ((set.rows.map encode).takeWhile (!endOfRows ·) ++
          stop :: (more ++ [set.ending.payload])) := by
      rw [ResultSet.payloads, ← List.cons_append, ← List.append_assoc (List.takeWhile _ _), ← hrest,
        hsplit]
    rw [hpayloads]
    refine ⟨_, hreply, fun hall => ?_⟩
    obtain ⟨row, hrow, rfl⟩ := List.mem_map.mp hstop
    rw [hall row hrow] at hend
    cases hend

/-- A set is returned as it was sent when it ends with EOF, no row looks like the end and
every row is decoded. -/
theorem answers_reply_iff (h : set.Legal fits encode) :
    Answers set (set.rows.map values) rest
        (Client.reply empty error decode (c.facing seq (set.payloads encode) rest)) ↔
      set.ending.isEof ∧ ∀ row ∈ set.rows, endOfRows (encode row) = false ∧
        decode (set.columns.map Column.info) (encode row) = values row := by
  obtain ⟨c', hreply, hconn⟩ := reply_set empty error decode c seq rest h
  rw [hreply]
  constructor
  · intro hanswers
    rw [Answers] at hanswers
    cases hending : set.ending with
    | err body =>
      rw [hending] at hanswers
      obtain ⟨e, c'', heq⟩ := hanswers
      cases heq
    | eof warnings status =>
      rw [hending] at hanswers
      obtain ⟨c'', heq, -⟩ := hanswers
      have hrows := (Res.ok.inj heq).1
      have hall : (set.rows.map encode).takeWhile (!endOfRows ·) = set.rows.map encode := by
        refine (List.takeWhile_prefix _).eq_of_length ?_
        simpa using congrArg List.length hrows
      rw [hall, List.map_map, List.map_inj_left] at hrows
      refine ⟨rfl, fun row hrow => ⟨?_, hrows row hrow⟩⟩
      have hnot := List.takeWhile_eq_self_iff.mp hall _ (List.mem_map_of_mem hrow)
      simpa using hnot
  · rintro ⟨heof, hrows⟩
    have hnot : ∀ row ∈ set.rows, endOfRows (encode row) = false := fun row hrow => (hrows row hrow).1
    have hall : (set.rows.map encode).takeWhile (!endOfRows ·) = set.rows.map encode := by
      refine List.takeWhile_eq_self_iff.mpr ?_
      rw [List.forall_mem_map]
      exact fun row hrow => by simpa using hnot row hrow
    have hvalues : (set.rows.map encode).map (decode (set.columns.map Column.info)) =
        set.rows.map values := by
      rw [List.map_map]
      exact List.map_congr_left fun row hrow => (hrows row hrow).2
    rw [Answers]
    cases hending : set.ending with
    | err body =>
      rw [hending] at heof
      cases heof
    | eof warnings status => exact ⟨c', by rw [hall, hvalues], hconn hnot⟩

end Rows

/-! ## The two commands -/

section Commands

variable {rest : Bytes} {c : Client} {seq : UInt8}

/-- The rows of a set of strings. -/
def textResults (set : ResultSet Bytes) : List DbRow :=
  set.rows.map (List.zipWith textResult set.columns)

theorem query_facing (sql : Bytes) (c : Client) (seq : UInt8) (ps : List Bytes) (rest : Bytes) :
    Client.query sql (c.facing seq ps rest) =
      Client.reply (ascii "db: empty response") Client.queryError textRow
        ({ c with sent := c.sent ++ sendPacket (0x03 :: sql) 0 }.facing seq ps rest) := rfl

theorem query_answers_iff {set : ResultSet Bytes} (sql : Bytes)
    (h : set.Legal (fun _ _ => True) textPayload) :
    Answers set (textResults set) rest
        (Client.query sql (c.facing seq (set.payloads textPayload) rest)) ↔
      set.ending.isEof ∧ ∀ row ∈ set.rows, ∀ s, row.head? = some (some s) → s.length < 2 ^ 24 := by
  rw [query_facing, textResults, answers_reply_iff h]
  refine and_congr_right fun _ => forall₂_congr fun row hrow => ?_
  have hfits := h.fits row hrow
  have hne : row ≠ [] := by
    rintro rfl
    exact h.columns_ne (List.length_eq_zero_iff.mp hfits.length_eq)
  have hshort : (textPayload row).length ≤ maxRecv := by
    refine h.short _ ?_
    rw [ResultSet.payloads, List.mem_append, List.mem_append]
    exact .inr (.inl (List.mem_map_of_mem hrow))
  rw [and_iff_left (textRow_textPayload hfits hshort), end_textPayload hne]

theorem length_wire_le {row : List (Option Cell)} {cell : Option Cell} (h : cell ∈ row) :
    (cell.elim [] Cell.wire).length ≤ (binaryPayload row).length := by
  have hle := List.single_le_sum (fun _ _ => Nat.zero_le _) _
    (List.mem_map_of_mem (f := fun cell : Option Cell => (cell.elim [] Cell.wire).length) h)
  rw [binaryPayload, List.length_cons, List.length_append, List.length_flatMap]
  omega

variable [DoubleOps]

def binaryResults (set : ResultSet Cell) : List DbRow :=
  set.rows.map (List.zipWith Cell.result set.columns)

theorem stmtExecute_facing (m : StmtMeta) {params : List DbParam}
    (h : (params.map textSize).sum ≤ mysqlMaxPacket) (c : Client) (seq : UInt8)
    (ps : List Bytes) (rest : Bytes) :
    Client.stmtExecute m params (c.facing seq ps rest) =
      Client.reply (ascii "db: stmt_execute empty response") Client.stmtError binaryRow
        ({ c with sent := c.sent ++ sendPacket (executePayload m params) 0 }.facing seq ps
          rest) := by
  rw [Client.stmtExecute, stmtExecute, if_neg (Nat.not_lt.mpr h)]
  rfl

variable (c seq rest) in
/-- The rows as they were decoded, whatever the end is. -/
theorem stmtExecute_returns {set : ResultSet Cell} (m : StmtMeta) {params : List DbParam}
    (hparams : (params.map textSize).sum ≤ mysqlMaxPacket)
    (h : set.Legal Cell.Fits binaryPayload) :
    ∃ c', Client.stmtExecute m params (c.facing seq (set.payloads binaryPayload) rest) =
      .ok (set.rows.map fun row => binaryRow (set.columns.map Column.info) (binaryPayload row))
        c' := by
  obtain ⟨c', hreply, -⟩ := reply_set (ascii "db: stmt_execute empty response") Client.stmtError
    binaryRow { c with sent := c.sent ++ sendPacket (executePayload m params) 0 } seq rest h
  have hall : (set.rows.map binaryPayload).takeWhile (!endOfRows ·) = set.rows.map binaryPayload := by
    refine List.takeWhile_eq_self_iff.mpr ?_
    rw [List.forall_mem_map]
    exact fun row _ => rfl
  rw [hall, List.map_map] at hreply
  exact ⟨c', by rw [stmtExecute_facing m hparams, hreply]; rfl⟩

theorem stmtExecute_answers_iff {set : ResultSet Cell} (m : StmtMeta) {params : List DbParam}
    (hparams : (params.map textSize).sum ≤ mysqlMaxPacket)
    (h : set.Legal Cell.Fits binaryPayload) :
    Answers set (binaryResults set) rest
        (Client.stmtExecute m params (c.facing seq (set.payloads binaryPayload) rest)) ↔
      set.ending.isEof ∧ ∀ row ∈ set.rows,
        binaryRow (set.columns.map Column.info) (binaryPayload row) =
          List.zipWith Cell.result set.columns row := by
  rw [stmtExecute_facing m hparams, binaryResults, answers_reply_iff h]
  refine and_congr_right fun _ => forall₂_congr fun row _ => ?_
  rw [and_iff_right (end_binaryPayload row)]

/-- For every set that the server sends.  `query` returns it as it was sent, or throws when it
ends with an ERR packet, if and only if it ends with EOF and no row begins with a cell of
`2 ^ 24` bytes or more.  `stmt_execute` does so only if the set ends with EOF and no integer
is a negative one of less than eight bytes or one from `2 ^ 63` on, and does so for each of
these sets without a BIT. -/
theorem result_sets_returned (c : Client) (seq : UInt8) (rest : Bytes) :
    (∀ (sql : Bytes) (set : ResultSet Bytes), set.Legal (fun _ _ => True) textPayload →
      (Answers set (textResults set) rest
          (Client.query sql (c.facing seq (set.payloads textPayload) rest)) ↔
        set.ending.isEof ∧
          ∀ row ∈ set.rows, ∀ s, row.head? = some (some s) → s.length < 2 ^ 24)) ∧
    ∀ (m : StmtMeta) (params : List DbParam) (set : ResultSet Cell),
      (params.map textSize).sum ≤ mysqlMaxPacket → set.Legal Cell.Fits binaryPayload →
      let answered := Answers set (binaryResults set) rest
        (Client.stmtExecute m params (c.facing seq (set.payloads binaryPayload) rest))
      let exact := set.ending.isEof ∧ ∀ row ∈ set.rows, ∀ cell ∈ row, Cell.Exact cell
      (answered → exact) ∧
        (exact → (∀ row ∈ set.rows, List.Forall₂ Cell.Known set.columns row) → answered) := by
  refine ⟨fun sql set h => query_answers_iff sql h, fun m params set hparams h => ?_⟩
  have hnull : ∀ row : List (Option Cell), (List.range' (0 + 2) row.length).map
      (bitAt (bitmap 2 (row.map Option.isNone))) = row.map Option.isNone := by
    intro row
    have hbits := range'_bitmap (row.map Option.isNone)
    rwa [List.length_map] at hbits
  dsimp only
  rw [stmtExecute_answers_iff m hparams h]
  constructor
  · rintro ⟨heof, hrows⟩
    refine ⟨heof, fun row hrow => ?_⟩
    have hfits := h.fits row hrow
    have hdecode := hrows row hrow
    rw [binaryRow_binaryPayload hfits.length_eq] at hdecode
    exact exact_of_binaryCells hfits (hnull row) hdecode
  · rintro ⟨heof, hexact⟩ hknown
    refine ⟨heof, fun row hrow => ?_⟩
    have hfits := h.fits row hrow
    have hpayload : (binaryPayload row).length ≤ maxRecv := by
      refine h.short _ ?_
      rw [ResultSet.payloads, List.mem_append, List.mem_append]
      exact .inr (.inl (List.mem_map_of_mem hrow))
    have hcells := binaryCells_wire [] hfits (hexact row hrow) (hknown row hrow)
      (fun cell hcell => Nat.le_trans (length_wire_le hcell) hpayload) (hnull row)
    rw [List.append_nil] at hcells
    rw [binaryRow_binaryPayload hfits.length_eq, hcells]

end Commands

/-! A set of two columns, and one that an error cuts short. -/

def idColumn : Column := ⟨[], [], [], [], ascii "id", [], 63, 11, 0x03, 0, 0⟩

def nameColumn : Column := ⟨[], [], [], [], ascii "name", [], 33, 255, 0xFD, 0, 0⟩

def twoRows : ResultSet Cell where
  columns := [idColumn, nameColumn]
  warnings := 0
  status := 2
  rows := [[some (.int .long 7), some (.text (ascii "x"))], [some (.int .long 8), none]]
  ending := .eof 0 2

def cutRows : ResultSet Bytes where
  columns := [idColumn]
  warnings := 0
  status := 2
  rows := [[some (ascii "7")]]
  ending := .err (ascii "interrupted")

def atRest : Client := ⟨none, [], 0, 0, false⟩

theorem legal_twoRows : twoRows.Legal Cell.Fits binaryPayload where
  columns_ne := List.cons_ne_nil _ _
  columns_le := by decide
  fits := by
    rw [twoRows, List.forall_mem_cons, List.forall_mem_singleton]
    exact ⟨.cons (.int rfl (by decide)) (.cons (.text (by decide)) .nil),
      .cons (.int rfl (by decide)) (.cons .null .nil)⟩
  short := by decide +kernel

theorem legal_cutRows : cutRows.Legal (fun _ _ => True) textPayload where
  columns_ne := List.cons_ne_nil _ _
  columns_le := by decide
  fits := by
    rw [cutRows, List.forall_mem_singleton]
    exact .cons trivial .nil
  short := by decide +kernel

theorem result_sets_returned_two :
    letI := DoubleOps.host
    Answers twoRows (binaryResults twoRows) []
        (Client.stmtExecute ⟨1, 2, 0⟩ [] (atRest.facing 1 (twoRows.payloads binaryPayload) [])) ∧
      ¬Answers cutRows (textResults cutRows) []
        (Client.query (ascii "select") (atRest.facing 1 (cutRows.payloads textPayload) [])) := by
  let _ := DoubleOps.host
  obtain ⟨hquery, hexecute⟩ := result_sets_returned atRest 1 []
  obtain ⟨-, hreturned⟩ := hexecute ⟨1, 2, 0⟩ [] twoRows (by decide) legal_twoRows
  refine ⟨hreturned ⟨rfl, by decide⟩ ?_, fun hanswers => ?_⟩
  · rw [twoRows, List.forall_mem_cons, List.forall_mem_singleton]
    have hid : ∀ cell, Cell.Known idColumn cell := fun _ h => absurd h (by decide)
    have hname : ∀ cell, Cell.Known nameColumn cell := fun _ h => absurd h (by decide)
    exact ⟨.cons (hid _) (.cons (hname _) .nil), .cons (hid _) (.cons (hname _) .nil)⟩
  · have heof := ((hquery (ascii "select") cutRows legal_cutRows).mp hanswers).1
    cases heof

/-- A query that is interrupted behind its first row returns this row, and nothing says that
there were more. -/
theorem error_taken_for_the_end :
    cutRows.ending.isEof = false ∧ ∃ c, Client.query (ascii "select")
      (atRest.facing 1 (cutRows.payloads textPayload) []) = .ok (textResults cutRows) c := by
  obtain ⟨c', hreply, -⟩ := reply_set (ascii "db: empty response") Client.queryError textRow
    { atRest with sent := sendPacket (0x03 :: ascii "select") 0 } 1 [] legal_cutRows
  exact ⟨rfl, c', hreply⟩

end Mysql

end Look
