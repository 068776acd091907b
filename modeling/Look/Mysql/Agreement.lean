/-
Integer columns in the text protocol and in the binary protocol.

`rows_to_value` turns a cell of an integer column into a number by `std::stoll`.  The text
protocol sends the digits of the number, the binary protocol its bytes, which
`stmt_execute` reads without the column's flag for unsigned numbers: both give the same value
exactly where `IntType.Exact` holds.
-/
import Mathlib.Algebra.Group.Int.Defs
import Mathlib.Algebra.Group.Nat.Defs
import Look.Mysql.Fidelity

namespace Look

namespace Mysql

/-! ## Integer columns -/

structure IntColumn where
  column : Column
  intType : IntType
  type_eq : column.type = intType.code
  /-- A display width is a byte. -/
  length_le : column.length.toNat ≤ 255

namespace IntColumn

/-- The flag of numbers that are filled up with zeros, as those of YEAR are. -/
def zerofill (col : IntColumn) : Bool := col.column.flags.toNat.testBit 6

/-- A value in the text protocol. -/
def text (col : IntColumn) (v : Int) : Bytes :=
  if col.zerofill ∧ 0 ≤ v then padded col.column.length.toNat v.toNat else intText v

end IntColumn

/-- Rows of integers. -/
structure IntTable where
  columns : List IntColumn
  rows : List (List (Option Int))
  warnings : UInt16
  status : UInt16

namespace IntTable

def textSet (table : IntTable) : ResultSet Bytes where
  columns := table.columns.map IntColumn.column
  warnings := table.warnings
  status := table.status
  rows := table.rows.map (List.zipWith (fun col cell => cell.map col.text) table.columns)
  ending := .eof table.warnings table.status

def binarySet (table : IntTable) : ResultSet Cell where
  columns := table.columns.map IntColumn.column
  warnings := table.warnings
  status := table.status
  rows := table.rows.map
    (List.zipWith (fun col cell => cell.map (Cell.int col.intType)) table.columns)
  ending := .eof table.warnings table.status

/-- Every value is one of its column. -/
def Legal (table : IntTable) : Prop :=
  ∀ row ∈ table.rows, List.Forall₂
    (fun col cell => ∀ v ∈ cell, col.intType.Holds col.column.unsigned v) table.columns row

end IntTable

/-! ## The value of a cell -/

section Cells

variable {t : IntType} {unsigned : Bool} {v : Int}

theorem range_of_holds (h : t.Holds unsigned v) : int64Min ≤ v ∧ v < 2 ^ 64 := by
  rw [IntType.Holds] at h
  have hmin : int64Min = -9223372036854775808 := rfl
  cases t <;> dsimp only [IntType.width] at h <;> split at h <;> omega

theorem stoll_text (col : IntColumn) (hmin : int64Min ≤ v) :
    if int64Max < v then stoll (chars (col.text v)) = .outOfRange
    else ∃ pos, stoll (chars (col.text v)) = .ok (Int64.ofInt v) pos := by
  rw [IntColumn.text]
  by_cases hfill : col.zerofill ∧ 0 ≤ v
  · have hnat : (v.toNat : Int) = v := Int.toNat_of_nonneg hfill.2
    rw [if_pos hfill, stoll_padded, hnat]
    split
    · rfl
    · exact ⟨_, rfl⟩
  · have hnot : ¬v < int64Min := Int.not_lt.mpr hmin
    rw [if_neg hfill, stoll_intText]
    by_cases hmax : int64Max < v
    · simp [hmax]
    · simp [hnot, hmax]

variable [DoubleOps]

theorem cellValue_int (str : Bytes) (t : IntType) :
    cellValue ⟨str, t.code, false⟩ =
      match stoll (chars str) with
      | .ok i _ => .int i
      | _ => .string str := by
  have hnull : (false || sqliteIsNull t.code || pgIsNull t.code) = false := by cases t <;> rfl
  have hbool : pgIsBool t.code = false := by cases t <;> rfl
  have hint : (mysqlIsInt t.code || sqliteIsInt t.code || pgIsInt t.code) = true := by
    cases t <;> rfl
  rw [cellValue, hnull, hbool, hint, if_neg Bool.false_ne_true, if_neg Bool.false_ne_true]
  exact if_pos rfl

/-- The value that is read from the bytes of `v`. -/
def readBack (t : IntType) (v : Int) : Int64 := Int64.ofNat (v % 256 ^ t.width).toNat

/-- The text and the bytes of a value give the same number exactly where it is exact. -/
theorem cellValue_text_eq_iff (col : IntColumn) (h : col.intType.Holds unsigned v) :
    cellValue ⟨col.text v, col.column.type, false⟩ =
        cellValue ⟨intText (readBack col.intType v).toInt, col.column.type, false⟩ ↔
      col.intType.Exact v := by
  obtain ⟨hmin, -⟩ := range_of_holds h
  obtain ⟨pos, hbinary⟩ := stoll_toInt (readBack col.intType v)
  have htext := stoll_text col hmin
  rw [col.type_eq, cellValue_int, cellValue_int, hbinary]
  by_cases hmax : int64Max < v
  · rw [if_pos hmax] at htext
    rw [htext]
    refine ⟨fun heq => Data.noConfusion heq, fun hexact => ?_⟩
    exact absurd hexact.1 (Int.not_lt.mpr hmax)
  · rw [if_neg hmax] at htext
    obtain ⟨pos', htext⟩ := htext
    have hval : (Int64.ofInt v).toInt = v :=
      Int64.toInt_ofInt_of_le hmin (Int.lt_of_le_of_lt (Int.not_lt.mp hmax) (by decide))
    rw [htext]
    dsimp only
    rw [Data.int.injEq, ← Int64.toInt_inj, hval]
    constructor
    · intro heq
      rw [heq]
      exact exact_of_lt (wire_lt col.intType v)
    · intro hexact
      exact (toInt_wire h hexact).symm

end Cells

/-! ## The value of a set -/

section Sets

variable {columns : List IntColumn} {row : List (Option Int)} {v : Int} {t : IntType}
  {unsigned : Bool}

theorem zipWith_columns {α β γ : Type} (f : Column → β → γ) (g : IntColumn → α → β)
    (columns : List IntColumn) (row : List α) :
    List.zipWith f (columns.map IntColumn.column) (List.zipWith g columns row) =
      List.zipWith (fun col cell => f col.column (g col cell)) columns row := by
  induction columns generalizing row with
  | nil => rfl
  | cons col columns ih =>
    cases row with
    | nil => rfl
    | cons cell row =>
      rw [List.map_cons, List.zipWith_cons_cons, List.zipWith_cons_cons, List.zipWith_cons_cons, ih]

theorem length_intText (hmin : -10 ^ 20 < v) (hmax : v < 10 ^ 20) : (intText v).length ≤ 21 := by
  have hdigits : (Nat.toDigits 10 v.natAbs).length ≤ 20 :=
    (Nat.length_toDigits_le_iff (by decide) (by decide)).mpr (by omega)
  rw [intText_eq, numeral, List.length_map, List.length_append]
  split
  · rw [List.length_singleton]
    omega
  · rw [List.length_nil]
    omega

theorem length_text_lt (col : IntColumn) (h : t.Holds unsigned v) :
    (col.text v).length < 2 ^ 24 := by
  obtain ⟨hmin, hmax⟩ := range_of_holds h
  have hint64 : int64Min = -9223372036854775808 := rfl
  have hwidth := col.length_le
  rw [IntColumn.text]
  split
  · have hlen := length_intText (v := v.toNat) (by omega) (by omega)
    rw [padded, List.length_append, List.length_replicate]
    omega
  · have hlen := length_intText (v := v) (by omega) (by omega)
    omega

theorem fits_row
    (h : List.Forall₂ (fun col cell => ∀ v ∈ cell, col.intType.Holds col.column.unsigned v)
      columns row) :
    List.Forall₂ Cell.Fits (columns.map IntColumn.column)
      (List.zipWith (fun col cell => cell.map (Cell.int col.intType)) columns row) := by
  induction h with
  | nil => exact .nil
  | @cons col cell columns row hcell _ ih =>
    refine .cons ?_ ih
    cases cell with
    | none => exact .null
    | some v => exact .int col.type_eq (hcell v rfl)

variable [DoubleOps]

/-- What is read from the bytes of an integer. -/
def readStr : Cell → Bytes
  | .int t v => intText (readBack t v).toInt
  | cell => cell.str

theorem binaryRow_ints
    (h : List.Forall₂ (fun col cell => ∀ v ∈ cell, col.intType.Holds col.column.unsigned v)
      columns row) :
    binaryRow ((columns.map IntColumn.column).map Column.info)
        (binaryPayload (List.zipWith (fun col cell => cell.map (Cell.int col.intType)) columns row)) =
      List.zipWith (fun col cell => (col.column.name, cell.elim ⟨[], col.column.type, true⟩
        fun v => ⟨intText (readBack col.intType v).toInt, col.column.type, false⟩)) columns row := by
  have hcells : List.Forall₂ (fun col cell => ∀ value ∈ cell, ∀ rest,
      binaryValue col.type (value.wire ++ rest) = (readStr value, rest))
      (columns.map IntColumn.column)
      (List.zipWith (fun col cell => cell.map (Cell.int col.intType)) columns row) := by
    induction h with
    | nil => exact .nil
    | @cons col cell columns row _ _ ih =>
      refine .cons ?_ ih
      intro value hvalue rest
      obtain ⟨v, rfl, rfl⟩ := Option.map_eq_some_iff.mp hvalue
      obtain ⟨hval, hrest⟩ := take_toLe rest (wire_lt col.intType v)
      rw [col.type_eq, binaryValue_code, Cell.wire, IntType.wire, hval, hrest]
      rfl
  have hbits := range'_bitmap ((List.zipWith (fun col cell => cell.map (Cell.int col.intType))
    columns row).map Option.isNone)
  rw [List.length_map] at hbits
  have hrow := binaryCells_row 0 [] hcells hbits
  rw [List.append_nil, zipWith_columns] at hrow
  rw [binaryRow_binaryPayload hcells.length_eq, hrow]
  congr 1
  funext col cell
  cases cell with
  | none => rfl
  | some v => rfl

omit [DoubleOps] in
/-- Two rows with the same names are equal exactly if their values are. -/
theorem assoc_zipWith_eq_iff {f g : IntColumn → Option Int → Data}
    (hlen : columns.length = row.length) :
    Data.assoc (List.zipWith (fun col cell => (col.column.name, f col cell)) columns row) =
        Data.assoc (List.zipWith (fun col cell => (col.column.name, g col cell)) columns row) ↔
      List.Forall₂ (fun col cell => f col cell = g col cell) columns row := by
  have hcells : List.zipWith (fun col cell => (col.column.name, f col cell)) columns row =
      List.zipWith (fun col cell => (col.column.name, g col cell)) columns row ↔
      List.Forall₂ (fun col cell => f col cell = g col cell) columns row := by
    induction columns generalizing row with
    | nil =>
      obtain rfl := List.length_eq_zero_iff.mp hlen.symm
      exact ⟨fun _ => .nil, fun _ => rfl⟩
    | cons col columns ih =>
      cases row with
      | nil => cases hlen
      | cons cell row =>
        rw [List.zipWith_cons_cons, List.zipWith_cons_cons, List.cons.injEq,
          ih (Nat.succ.inj hlen), List.forall₂_cons, Prod.mk.injEq, and_iff_right rfl]
  exact ⟨fun h => hcells.mp (Data.assoc_inj h), fun h => congrArg Data.assoc (hcells.mpr h)⟩

/-- The value that a table's cells give. -/
def tableValue (table : IntTable) (f : IntColumn → Option Int → DbValue) : Data :=
  .array (table.rows.map fun row => Data.assoc
    (List.zipWith (fun col cell => (col.column.name, cellValue (f col cell))) table.columns row))

theorem tableValue_eq_iff {table : IntTable} {f g : IntColumn → Option Int → DbValue}
    (hlegal : table.Legal) :
    tableValue table f = tableValue table g ↔ ∀ row ∈ table.rows, List.Forall₂
      (fun col cell => cellValue (f col cell) = cellValue (g col cell)) table.columns row := by
  rw [tableValue, tableValue, Data.array.injEq, List.map_inj_left]
  exact forall₂_congr fun row hrow => assoc_zipWith_eq_iff (hlegal row hrow).length_eq

theorem rowsToValue_text (table : IntTable) :
    rowsToValue (textResults table.textSet) =
      tableValue table fun col cell => (textResult col.column (cell.map col.text)).2 := by
  rw [rowsToValue, textResults, IntTable.textSet, List.map_map, List.map_map, tableValue]
  refine congrArg Data.array (List.map_congr_left fun row _ => congrArg Data.assoc ?_)
  dsimp only [Function.comp]
  rw [zipWith_columns, List.map_zipWith]
  rfl

theorem rowsToValue_binary {table : IntTable} (hlegal : table.Legal) :
    rowsToValue (table.binarySet.rows.map fun row =>
        binaryRow (table.binarySet.columns.map Column.info) (binaryPayload row)) =
      tableValue table fun col cell => cell.elim ⟨[], col.column.type, true⟩
        fun v => ⟨intText (readBack col.intType v).toInt, col.column.type, false⟩ := by
  rw [rowsToValue, IntTable.binarySet, List.map_map, List.map_map, tableValue]
  refine congrArg Data.array (List.map_congr_left fun row hrow => congrArg Data.assoc ?_)
  dsimp only [Function.comp]
  rw [binaryRow_ints (hlegal row hrow), List.map_zipWith]

/-- For every table of integer columns, with NULLs anywhere: the value of the binary rows is
the value of the text rows if and only if every integer is exact, which is that those of less
than eight bytes are not negative and those of eight bytes are below `2 ^ 63`. -/
theorem text_binary_agree_iff (table : IntTable) (sql : Bytes) (m : StmtMeta)
    (params : List DbParam) (c c' : Client) (seq seq' : UInt8) (rest rest' : Bytes)
    (hparams : (params.map textSize).sum ≤ mysqlMaxPacket) (hlegal : table.Legal)
    (htext : table.textSet.Legal (fun _ _ => True) textPayload)
    (hbinary : table.binarySet.Legal Cell.Fits binaryPayload) :
    ∃ rows rows' s s',
      Client.query sql (c.facing seq (table.textSet.payloads textPayload) rest) = .ok rows s ∧
      Client.stmtExecute m params
        (c'.facing seq' (table.binarySet.payloads binaryPayload) rest') = .ok rows' s' ∧
      (rowsToValue rows = rowsToValue rows' ↔ ∀ row ∈ table.rows,
        List.Forall₂ (fun col cell => ∀ v ∈ cell, col.intType.Exact v) table.columns row) := by
  have hshort : ∀ row ∈ table.textSet.rows, ∀ s, row.head? = some (some s) → s.length < 2 ^ 24 := by
    rw [IntTable.textSet, List.forall_mem_map]
    intro row hrow s hs
    have hcells := hlegal row hrow
    generalize table.columns = columns at hcells hs
    cases hcells with
    | nil => cases hs
    | @cons col cell columns row hcell _ =>
      obtain ⟨v, rfl, rfl⟩ := Option.map_eq_some_iff.mp (Option.some.inj hs)
      exact length_text_lt col (hcell v rfl)
  obtain ⟨s, hquery, -⟩ : ∃ s, Client.query sql
      (c.facing seq (table.textSet.payloads textPayload) rest) = .ok (textResults table.textSet) s ∧
      s.conn = some rest := (query_answers_iff sql htext).mpr ⟨rfl, hshort⟩
  obtain ⟨s', hexecute⟩ := stmtExecute_returns rest' c' seq' m hparams hbinary
  refine ⟨_, _, s, s', hquery, hexecute, ?_⟩
  rw [rowsToValue_text, rowsToValue_binary hlegal, tableValue_eq_iff hlegal]
  refine forall₂_congr fun row hrow => ?_
  have hcells := hlegal row hrow
  generalize table.columns = columns at hcells
  clear hrow
  induction hcells with
  | nil => exact ⟨fun _ => .nil, fun _ => .nil⟩
  | @cons col cell columns row hcell _ ih =>
    rw [List.forall₂_cons, List.forall₂_cons]
    refine and_congr ?_ ih
    cases cell with
    | none => exact ⟨fun _ v hv => (nomatch hv), fun _ => rfl⟩
    | some v =>
      have hvalue := cellValue_text_eq_iff col (hcell v rfl)
      refine hvalue.trans ⟨fun hexact v' hv' => ?_, fun hexact => hexact v rfl⟩
      obtain rfl := Option.some.inj hv'
      exact hexact

end Sets

/-! Columns of TINY and BIGINT, the second without a sign. -/

def tinyColumn : IntColumn where
  column := ⟨[], [], [], [], ascii "a", [], 63, 4, 0x01, 0, 0⟩
  intType := .tiny
  type_eq := rfl
  length_le := by decide

def bigintColumn : IntColumn where
  column := ⟨[], [], [], [], ascii "b", [], 63, 20, 0x08, 0x20, 0⟩
  intType := .longlong
  type_eq := rfl
  length_le := by decide

def ticket (a b : Option Int) : IntTable := ⟨[tinyColumn, bigintColumn], [[a, b]], 0, 2⟩

theorem legal_ticket :
    (ticket (some 5) none).Legal ∧
      (ticket (some 5) none).textSet.Legal (fun _ _ => True) textPayload ∧
      (ticket (some 5) none).binarySet.Legal Cell.Fits binaryPayload := by
  have hlegal : (ticket (some 5) none).Legal := by
    rw [IntTable.Legal, ticket, List.forall_mem_singleton]
    refine .cons ?_ (.cons ?_ .nil)
    · rintro v ⟨⟩
      decide
    · rintro v ⟨⟩
  refine ⟨hlegal, ⟨List.cons_ne_nil _ _, by decide, ?_, by decide +kernel⟩,
    ⟨List.cons_ne_nil _ _, by decide, ?_, by decide +kernel⟩⟩
  · rw [IntTable.textSet, List.forall_mem_map]
    intro row hrow
    obtain rfl := List.mem_singleton.mp hrow
    exact .cons trivial (.cons trivial .nil)
  · rw [IntTable.binarySet, List.forall_mem_map]
    exact fun row hrow => fits_row (hlegal row hrow)

theorem text_binary_agree_five :
    letI := DoubleOps.host
    ∃ rows rows' s s',
      Client.query (ascii "select") (atRest.facing 1
        ((ticket (some 5) none).textSet.payloads textPayload) []) = .ok rows s ∧
      Client.stmtExecute ⟨1, 2, 0⟩ [] (atRest.facing 1
        ((ticket (some 5) none).binarySet.payloads binaryPayload) []) = .ok rows' s' ∧
      rowsToValue rows = rowsToValue rows' := by
  let _ := DoubleOps.host
  obtain ⟨hlegal, htext, hbinary⟩ := legal_ticket
  obtain ⟨rows, rows', s, s', hquery, hexecute, hiff⟩ := text_binary_agree_iff
    (ticket (some 5) none) (ascii "select") ⟨1, 2, 0⟩ [] atRest atRest 1 1 [] [] (by decide) hlegal
    htext hbinary
  refine ⟨rows, rows', s, s', hquery, hexecute, hiff.mpr ?_⟩
  rw [ticket, List.forall_mem_singleton]
  refine .cons ?_ (.cons ?_ .nil)
  · rintro v ⟨⟩
    decide
  · rintro v ⟨⟩

/-- The same row in both protocols: `-1` comes back as `255` from the bytes. -/
theorem negative_tiny_differs :
    letI := DoubleOps.host
    let fromText := rowsToValue
      [textRow [tinyColumn.column.info] (textPayload [some (tinyColumn.text (-1))])]
    let fromBinary := rowsToValue
      [binaryRow [tinyColumn.column.info] (binaryPayload [some (.int .tiny (-1))])]
    fromText = .array [.assoc [(ascii "a", .int (-1))]] ∧
      fromBinary = .array [.assoc [(ascii "a", .int 255)]] ∧ fromText ≠ fromBinary := by
  refine ⟨rfl, rfl, fun heq => ?_⟩
  have hrow := (List.cons.inj (Data.array.inj heq)).1
  have hcell := (List.cons.inj (Data.assoc_inj hrow)).1
  have hval : (-1 : Int64) = 255 := Data.int.inj (congrArg Prod.snd hcell)
  exact absurd hval (by decide)

end Mysql

end Look
