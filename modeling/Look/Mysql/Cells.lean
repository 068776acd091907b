/-
The cells of a row in the two protocols, and what the client makes of them.

A text cell is a string, or the byte `0xFB` for NULL.  A binary cell has the form of its
type, and a bitmap says which cells are NULL.
-/
import Mathlib.Data.List.Forall2
import Look.Mysql.ResultSet

namespace Look

namespace Mysql

/-! ## Text rows -/

def textPayload (row : List (Option Bytes)) : Bytes :=
  row.flatMap fun cell => cell.elim [0xFB] lenencStr

/-- The cell that `query` returns. -/
def textResult (col : Column) (cell : Option Bytes) : Bytes × DbValue :=
  (col.name, cell.elim ⟨[], 0xFE, true⟩ fun s => ⟨s, col.type, false⟩)

theorem textCell_wire (col : Column) (cell : Option Bytes) (rest : Bytes)
    (h : (cell.elim [0xFB] lenencStr).length ≤ maxRecv) :
    textCell col.info (cell.elim [0xFB] lenencStr ++ rest) = ((textResult col cell).2, rest) := by
  cases cell with
  | none => rfl
  | some s =>
    have hlen : s.length < 2 ^ 64 :=
      Nat.lt_of_le_of_lt (Nat.le_trans (length_le_lenencStr s) h) (by decide)
    have hread := readLenencStr_lenencStr hlen rest
    obtain ⟨b, bs, hlenenc, hb⟩ := lenenc_ne_null s.length
    have hhead : (lenencStr s ++ rest).head? ≠ some 0xFB := by
      rw [lenencStr, hlenenc]
      exact fun heq => hb (Option.some.inj heq)
    rw [Option.elim_some, textCell, if_neg hhead, hread]
    rfl

theorem textRow_textPayload {columns : List Column} {row : List (Option Bytes)}
    (h : List.Forall₂ (fun _ _ => True) columns row) (hshort : (textPayload row).length ≤ maxRecv) :
    textRow (columns.map Column.info) (textPayload row) = List.zipWith textResult columns row := by
  induction h with
  | nil => rfl
  | @cons col cell columns row _ _ ih =>
    rw [textPayload, List.flatMap_cons, List.length_append] at hshort
    have hcell := textCell_wire col cell (textPayload row) (by omega)
    have hrow := ih (Nat.le_trans (Nat.le_add_left _ _) hshort)
    rw [textPayload] at hrow hcell
    rw [textPayload, List.flatMap_cons, List.map_cons, textRow, hcell]
    dsimp only
    rw [hrow]
    rfl

/-- The prefix of an EOF packet is that of the numbers from `2 ^ 24` on. -/
theorem end_lenenc (n : Nat) (rest : Bytes) :
    endOfRows (lenenc n ++ rest) = decide (2 ^ 24 ≤ n) := by
  rw [lenenc]
  split
  · rename_i hn
    have hval : (UInt8.ofNat n).toNat = n := by
      rw [UInt8.toNat_ofNat', Nat.mod_eq_of_lt (by omega)]
    have hne : ∀ b : UInt8, 251 ≤ b.toNat → UInt8.ofNat n ≠ b := by
      intro b hb heq
      rw [← heq, hval] at hb
      omega
    rw [List.singleton_append, endOfRows, decide_eq_false (hne 0xFE (by decide)),
      decide_eq_false (hne 0xFF (by decide)), decide_eq_false (by omega)]
    rfl
  · split
    · rw [decide_eq_false (by omega)]
      rfl
    · split
      · rw [decide_eq_false (by omega)]
        rfl
      · rw [decide_eq_true (by omega)]
        rfl

theorem end_textPayload {row : List (Option Bytes)} (hne : row ≠ []) :
    endOfRows (textPayload row) = false ↔ ∀ s, row.head? = some (some s) → s.length < 2 ^ 24 := by
  obtain ⟨cell, row, rfl⟩ := List.exists_cons_of_ne_nil hne
  rw [textPayload, List.flatMap_cons]
  cases cell with
  | none => exact ⟨fun _ s hs => by simp at hs, fun _ => rfl⟩
  | some s =>
    rw [Option.elim_some, lenencStr, List.append_assoc, end_lenenc, decide_eq_false_iff_not,
      Nat.not_le]
    refine ⟨fun hlt s' hs' => ?_, fun h => h s rfl⟩
    obtain rfl := Option.some.inj (Option.some.inj hs')
    exact hlt

/-! ## Binary cells -/

/-- The integer types of columns. -/
inductive IntType where
  | tiny
  | short
  | year
  | int24
  | long
  | longlong
deriving DecidableEq

namespace IntType

def code : IntType → UInt8
  | tiny => 0x01
  | short => 0x02
  | year => 0x0D
  | int24 => 0x09
  | long => 0x03
  | longlong => 0x08

/-- How many bytes a binary cell has. -/
def width : IntType → Nat
  | tiny => 1
  | short => 2
  | year => 2
  | int24 => 4
  | long => 4
  | longlong => 8

/-- The values that a cell can hold. -/
def Holds (t : IntType) (unsigned : Bool) (v : Int) : Prop :=
  if unsigned then 0 ≤ v ∧ v < 256 ^ t.width
  else -(256 ^ t.width / 2) ≤ v ∧ v < 256 ^ t.width / 2

instance (t : IntType) (unsigned : Bool) (v : Int) : Decidable (t.Holds unsigned v) :=
  inferInstanceAs (Decidable (if unsigned then _ else _))

/-- The two's complement of a value. -/
def wire (t : IntType) (v : Int) : Bytes := toLe t.width (v % 256 ^ t.width).toNat

/-- Whether the client reads the value as it is: below eight bytes it takes every value for
an unsigned one, and one of eight bytes for a signed one. -/
def Exact (t : IntType) (v : Int) : Prop := v < 2 ^ 63 ∧ (t.width < 8 → 0 ≤ v)

instance (t : IntType) (v : Int) : Decidable (t.Exact v) := inferInstanceAs (Decidable (_ ∧ _))

end IntType

inductive Cell where
  | int (t : IntType) (v : Int)
  | float (bits : BitVec 32)
  | double (d : Double)
  | date (block : Bytes)
  | time (block : Bytes)
  | text (s : Bytes)

namespace Cell

def wire : Cell → Bytes
  | int t v => t.wire v
  | float bits => toLe 4 bits.toNat
  | double d => toLe 8 d.bits.toNat
  | date block => UInt8.ofNat block.length :: block
  | time block => UInt8.ofNat block.length :: block
  | text s => lenencStr s

/-- The form that a cell has by the type of its column.  A date and a time leave out the
parts at their end that are zero. -/
inductive Fits (col : Column) : Option Cell → Prop where
  | null : Fits col none
  | int {t : IntType} {v : Int} (type : col.type = t.code) (holds : t.Holds col.unsigned v) :
    Fits col (some (int t v))
  | float {bits : BitVec 32} (type : col.type = 0x04) : Fits col (some (float bits))
  | double {d : Double} (type : col.type = 0x05) : Fits col (some (double d))
  | date {block : Bytes} (type : col.type ∈ [0x07, 0x0A, 0x0C, 0x0E])
    (len : block.length ∈ [0, 4, 7, 11]) : Fits col (some (date block))
  | time {block : Bytes} (type : col.type = 0x0B) (len : block.length ∈ [0, 8, 12]) :
    Fits col (some (time block))
  | text {s : Bytes} (type : col.type ∉
      [0x01, 0x02, 0x03, 0x04, 0x05, 0x07, 0x08, 0x09, 0x0A, 0x0B, 0x0C, 0x0D, 0x0E]) :
    Fits col (some (text s))

/-- Whether the client reads the cell by the form that it has.  A BIT is sent as a string. -/
def Known (col : Column) (cell : Option Cell) : Prop := col.type = 0x10 → cell = none

/-- Only an integer can be read as another value. -/
def Exact : Option Cell → Prop
  | some (int t v) => t.Exact v
  | _ => True

instance : DecidablePred Exact
  | some (int t v) => inferInstanceAs (Decidable (t.Exact v))
  | none | some (float _) | some (double _) | some (date _) | some (time _) | some (text _) =>
    .isTrue trivial

variable [DoubleOps]

/-- The text of a cell. -/
def str : Cell → Bytes
  | int _ v => intText v
  | float bits => ascii (DoubleOps.format (ofFloat bits.toNat))
  | double d => ascii (DoubleOps.format d)
  | date block => dateText block.length fun off => (block.getD off 0).toNat
  | time block => timeText block.length fun off => (block.getD off 0).toNat
  | text s => s

/-- The cell that `stmt_execute` returns. -/
def result (col : Column) (cell : Option Cell) : Bytes × DbValue :=
  (col.name, cell.elim ⟨[], col.type, true⟩ fun cell => ⟨cell.str, col.type, false⟩)

end Cell

def binaryPayload (row : List (Option Cell)) : Bytes :=
  0x00 :: (bitmap 2 (row.map Option.isNone) ++ row.flatMap fun cell => cell.elim [] Cell.wire)

/-! ### Integers -/

variable {t : IntType} {v : Int} {unsigned : Bool}

theorem leWidth_code (t : IntType) : leWidth t.code = some t.width := by
  cases t <;> rfl

theorem pow_width (t : IntType) : ((256 ^ t.width : Nat) : Int) = 256 ^ t.width :=
  Int.natCast_pow 256 t.width

theorem pow_width_pos (t : IntType) : (0 : Int) < 256 ^ t.width := Int.pow_pos (by decide)

/-- The two's complement is a number of as many bytes. -/
theorem wire_lt (t : IntType) (v : Int) : (v % 256 ^ t.width).toNat < 256 ^ t.width := by
  have hlt := Int.emod_lt_of_pos v (pow_width_pos t)
  have hnonneg := Int.emod_nonneg v (Int.ne_of_gt (pow_width_pos t))
  have hcast := pow_width t
  omega

/-- An exact value is what its bytes are read as. -/
theorem toInt_wire (hholds : t.Holds unsigned v) (h : t.Exact v) :
    (Int64.ofNat (v % 256 ^ t.width).toNat).toInt = v := by
  obtain ⟨hmax, hmin⟩ := h
  rw [IntType.Holds] at hholds
  have hnonneg := Int.emod_nonneg v (Int.ne_of_gt (pow_width_pos t))
  rw [Int64.toInt_ofNat', Int.toNat_of_nonneg hnonneg]
  cases t with
  | longlong =>
    have hbmod : (v % 256 ^ 8).bmod Int64.size = v.bmod Int64.size := Int.emod_bmod v Int64.size
    dsimp only [IntType.width] at hholds ⊢
    rw [hbmod]
    refine Int.bmod_eq_of_le ?_ hmax
    split at hholds
    · exact Int.le_trans (by decide) hholds.1
    · exact hholds.1
  | _ =>
    dsimp only [IntType.width] at hholds hmin ⊢
    have hpos := hmin (by decide)
    rw [Int.emod_eq_of_lt hpos (by split at hholds <;> omega)]
    exact Int.bmod_eq_of_le (Int.le_trans (by decide) hpos) hmax

/-- What is read from so many bytes is exact. -/
theorem exact_of_lt {n : Nat} (h : n < 256 ^ t.width) : t.Exact (Int64.ofNat n).toInt := by
  refine ⟨Int64.toInt_lt _, fun hwidth => ?_⟩
  have hpow : 256 ^ t.width ≤ 256 ^ 7 := Nat.pow_le_pow_right (by decide) (by omega)
  have hlt : n < 2 ^ 63 := Nat.lt_of_lt_of_le h (Nat.le_trans hpow (by decide))
  rw [Int64.toInt_ofNat_of_lt hlt]
  exact Int.natCast_nonneg _

theorem exact_of_intText {p : Bytes}
    (h : intText (Int64.ofNat (ofLe (p.take t.width))).toInt = intText v) : t.Exact v := by
  obtain rfl := intText_inj h
  refine exact_of_lt (Nat.lt_of_lt_of_le (ofLe_lt _) (Nat.pow_le_pow_right (by decide) ?_))
  rw [List.length_take]
  exact Nat.min_le_left _ _

/-! ### Dates and times -/

theorem dateText_congr {len : Nat} {g g' : Nat → Nat} (hlen : len ∈ [0, 4, 7, 11])
    (h : ∀ off < len, g off = g' off) : dateText len g = dateText len g' := by
  simp only [List.mem_cons, List.not_mem_nil, or_false] at hlen
  rcases hlen with rfl | rfl | rfl | rfl <;> simp [dateText, word, h]

theorem timeText_congr {len : Nat} {g g' : Nat → Nat} (hlen : len ∈ [0, 8, 12])
    (h : ∀ off < len, g off = g' off) : timeText len g = timeText len g' := by
  simp only [List.mem_cons, List.not_mem_nil, or_false] at hlen
  rcases hlen with rfl | rfl | rfl <;> simp [timeText, word, h]

/-- The block of a date or a time is taken as a whole. -/
theorem readTemporal_block {text : Nat → (Nat → Nat) → Bytes} {block : Bytes} (rest : Bytes)
    (hlen : block.length < 256)
    (htext : ∀ g g' : Nat → Nat, (∀ off < block.length, g off = g' off) →
      text block.length g = text block.length g') :
    readTemporal text (UInt8.ofNat block.length :: block ++ rest) =
      (text block.length fun off => (block.getD off 0).toNat, rest) := by
  have hread : readLe 1 (UInt8.ofNat block.length :: block ++ rest) = (block.length, block ++ rest) := by
    have hval : (UInt8.ofNat block.length).toNat = block.length := by
      rw [UInt8.toNat_ofNat', Nat.mod_eq_of_lt hlen]
    rw [readLe, List.cons_append, List.take_succ_cons, List.take_zero, ofLe_cons, hval]
    rfl
  rw [readTemporal, hread]
  dsimp only
  rw [List.drop_left]
  congr 1
  refine htext _ _ fun off hoff => ?_
  rw [List.getD_eq_getElem?_getD, List.getElem?_append_left hoff, ← List.getD_eq_getElem?_getD]

/-! ### Rows -/

/-- The bits of the NULL bitmap stand behind the two that are not used. -/
theorem range'_bitmap (flags : List Bool) :
    (List.range' 2 flags.length).map (bitAt (bitmap 2 flags)) = flags := by
  refine List.ext_getElem ?_ ?_
  · rw [List.length_map, List.length_range']
  · intro i hi hi'
    rw [List.getElem_map, List.getElem_range', Nat.one_mul, Nat.add_comm]
    exact bitAt_bitmap hi'

theorem end_binaryPayload (row : List (Option Cell)) : endOfRows (binaryPayload row) = false := rfl

section BinaryRows

variable [DoubleOps] {col : Column} {columns : List Column} {row : List (Option Cell)}
  {nbm rest : Bytes} {ci : Nat}

theorem readFloat_toLe {w n : Nat} (value : Nat → Double) (h : n < 256 ^ w) (rest : Bytes) :
    readFloat w value (toLe w n ++ rest) = (ascii (DoubleOps.format (value n)), rest) := by
  obtain ⟨hval, hrest⟩ := take_toLe rest h
  have hle : w ≤ (toLe w n ++ rest).length := by
    rw [List.length_append, length_toLe]
    exact Nat.le_add_right _ _
  rw [readFloat, if_pos hle, hval, hrest]

theorem binaryValue_code (t : IntType) (p : Bytes) :
    binaryValue t.code p =
      (intText (Int64.ofNat (ofLe (p.take t.width))).toInt, p.drop t.width) := by
  rw [binaryValue, leWidth_code]
  rfl

theorem binaryValue_wire {cell : Cell} (h : Cell.Fits col (some cell))
    (hexact : Cell.Exact (some cell)) (hknown : Cell.Known col (some cell))
    (hshort : cell.wire.length ≤ maxRecv) (rest : Bytes) :
    binaryValue col.type (cell.wire ++ rest) = (cell.str, rest) := by
  cases h with
  | @int t v type holds =>
    obtain ⟨hval, hrest⟩ := take_toLe rest (wire_lt t v)
    rw [type, binaryValue_code, Cell.wire, IntType.wire, hval, hrest, toInt_wire holds hexact]
    rfl
  | @float bits type =>
    have hlt : bits.toNat < 256 ^ 4 := bits.isLt
    rw [type]
    exact readFloat_toLe ofFloat hlt rest
  | @double d type =>
    have hbits : BitVec.ofNat 64 d.bits.toNat = d.bits := by
      rw [BitVec.ofNat_toNat, BitVec.setWidth_eq]
    have hlt : d.bits.toNat < 256 ^ 8 := d.bits.isLt
    have hread := readFloat_toLe (fun n => ⟨BitVec.ofNat 64 n⟩) hlt rest
    rw [hbits] at hread
    rw [type]
    exact hread
  | @date block type len =>
    have hlen : block.length < 256 := by
      simp only [List.mem_cons, List.not_mem_nil, or_false] at len
      omega
    have hread := readTemporal_block rest hlen fun _ _ => dateText_congr len
    simp only [List.mem_cons, List.not_mem_nil, or_false] at type
    rcases type with type | type | type | type <;> rw [type] <;> exact hread
  | @time block type len =>
    have hlen : block.length < 256 := by
      simp only [List.mem_cons, List.not_mem_nil, or_false] at len
      omega
    have hread := readTemporal_block rest hlen fun _ _ => timeText_congr len
    rw [type]
    exact hread
  | @text s type =>
    have hbit : col.type ≠ 0x10 := fun hbit => Option.some_ne_none _ (hknown hbit)
    have hlen : s.length < 2 ^ 64 :=
      Nat.lt_of_le_of_lt (Nat.le_trans (length_le_lenencStr s) hshort) (by decide)
    simp only [List.mem_cons, List.not_mem_nil, or_false, not_or] at type
    have hnone : leWidth col.type = none := by simp [leWidth, type, hbit]
    rw [binaryValue, hnone]
    simp only [type, if_false, or_self]
    exact readLenencStr_lenencStr hlen rest

/-- A row whose cells are read as `str`. -/
theorem binaryCells_row {str : Cell → Bytes} (ci : Nat) (rest : Bytes)
    (h : List.Forall₂ (fun col cell => ∀ value ∈ cell, ∀ rest,
      binaryValue col.type (value.wire ++ rest) = (str value, rest)) columns row)
    (hnull : (List.range' (ci + 2) row.length).map (bitAt nbm) = row.map Option.isNone) :
    binaryCells nbm ci (columns.map Column.info)
        ((row.flatMap fun cell => cell.elim [] Cell.wire) ++ rest) =
      List.zipWith (fun col cell => (col.name,
        cell.elim ⟨[], col.type, true⟩ fun value => ⟨str value, col.type, false⟩)) columns row := by
  induction h generalizing ci with
  | nil => rfl
  | @cons col cell columns row hcell _ ih =>
    rw [List.length_cons, List.range'_succ, List.map_cons, List.map_cons] at hnull
    obtain ⟨hbit, hbits⟩ := List.cons.inj hnull
    have hrest := ih (ci + 1) hbits
    rw [List.flatMap_cons, List.append_assoc, List.map_cons, binaryCells, hbit]
    cases cell with
    | none =>
      rw [if_pos Option.isNone_none, Option.elim_none, List.nil_append, hrest]
      rfl
    | some value =>
      have hvalue : binaryValue col.info.type _ = _ :=
        hcell value rfl ((row.flatMap fun cell => cell.elim [] Cell.wire) ++ rest)
      rw [if_neg (by simp), Option.elim_some, hvalue]
      dsimp only
      rw [hrest]
      rfl

variable (rest) in
theorem binaryCells_wire (h : List.Forall₂ Cell.Fits columns row)
    (hexact : ∀ cell ∈ row, Cell.Exact cell) (hknown : List.Forall₂ Cell.Known columns row)
    (hshort : ∀ cell ∈ row, (cell.elim [] Cell.wire).length ≤ maxRecv)
    (hnull : (List.range' (ci + 2) row.length).map (bitAt nbm) = row.map Option.isNone) :
    binaryCells nbm ci (columns.map Column.info)
        ((row.flatMap fun cell => cell.elim [] Cell.wire) ++ rest) =
      List.zipWith Cell.result columns row := by
  refine binaryCells_row ci rest ?_ hnull
  clear hnull
  induction h with
  | nil => exact .nil
  | @cons col cell columns row hfits _ ih =>
    rw [List.forall_mem_cons] at hexact hshort
    cases hknown with
    | cons hcol hcols =>
      refine .cons ?_ (ih hexact.2 hcols hshort.2)
      rintro value rfl rest
      exact binaryValue_wire hfits hexact.1 hcol hshort.1 rest

/-- Whatever the bytes are, the integers are exact where the row is right. -/
theorem exact_of_binaryCells {p : Bytes} (h : List.Forall₂ Cell.Fits columns row)
    (hnull : (List.range' (ci + 2) row.length).map (bitAt nbm) = row.map Option.isNone)
    (heq : binaryCells nbm ci (columns.map Column.info) p = List.zipWith Cell.result columns row) :
    ∀ cell ∈ row, Cell.Exact cell := by
  induction h generalizing ci p with
  | nil => exact fun cell hcell => absurd hcell (List.not_mem_nil)
  | @cons col cell columns row hfits _ ih =>
    rw [List.length_cons, List.range'_succ, List.map_cons, List.map_cons] at hnull
    obtain ⟨hbit, hbits⟩ := List.cons.inj hnull
    rw [List.map_cons, binaryCells, hbit] at heq
    rw [List.forall_mem_cons]
    cases hcell : cell with
    | none =>
      rw [hcell, if_pos Option.isNone_none] at heq
      exact ⟨trivial, ih hbits (List.cons.inj heq).2⟩
    | some value =>
      rw [hcell, if_neg (by simp)] at heq
      obtain ⟨hhead, htail⟩ := List.cons.inj heq
      refine ⟨?_, ih hbits htail⟩
      rw [hcell] at hfits
      cases hfits with
      | @int t v type holds =>
        have hstr : (binaryValue col.type p).1 = intText v :=
          congrArg (fun cell : Bytes × DbValue => cell.2.str) hhead
        rw [type, binaryValue_code] at hstr
        exact exact_of_intText hstr
      | _ => trivial

theorem binaryRow_binaryPayload (h : columns.length = row.length) :
    binaryRow (columns.map Column.info) (binaryPayload row) =
      binaryCells (bitmap 2 (row.map Option.isNone)) 0 (columns.map Column.info)
        (row.flatMap fun cell => cell.elim [] Cell.wire) := by
  have hlen : (bitmap 2 (row.map Option.isNone)).length =
      ((columns.map Column.info).length + 7 + 2) / 8 := by
    rw [length_bitmap, List.length_map, List.length_map, h]
  rw [binaryRow, binaryPayload, List.drop_succ_cons, List.drop_zero]
  rw [← hlen, List.take_left, List.drop_left]

end BinaryRows

end Mysql

end Look
