/-
The two row decoders of the SQLite driver: `SqliteClient::query_here`, which runs a statement as
it is, and `execute_here`, which binds parameters to it.

A statement is what `sqlite3_prepare_v2` makes of its text: the number of its placeholders, the
rows that stepping through it gives and how that ends.  The column functions return what is
stored.  `execute_here` has no case for a BLOB, so that its bytes come back as a text where
`query_here` returns their hexadecimal digits; `queryHere_eq_executeHere_iff` says that nothing
else makes the two differ.
-/
import Look.Db.Result

namespace Look

namespace Sqlite

/-- A cell, by its storage class. -/
inductive Cell where
  | integer (i : Int64)
  | float (d : Double)
  | text (s : List UInt8)
  | blob (s : List UInt8)
  | null
deriving DecidableEq

/-- A prepared statement; `error` is the message when stepping does not end in `SQLITE_DONE`. -/
structure Statement where
  placeholders : Nat
  names : List (List UInt8)
  rows : List (List Cell)
  wide : ∀ row ∈ rows, row.length = names.length
  error : Option (List UInt8)

/-- What the driver asks SQLite for. -/
structure Database where
  prepare : List UInt8 → Except (List UInt8) Statement
  /-- The message when the write gate does not let the statement in. -/
  gateBefore : List UInt8 → Option (List UInt8)
  changes : Nat
  lastInsertRowid : Int64

structure Client where
  affectedRows : Nat
  lastInsertId : Int64
deriving DecidableEq

namespace SqliteType

def integer : UInt8 := 0x81

def float : UInt8 := 0x82

def text : UInt8 := 0x83

def blob : UInt8 := 0x84

def nul : UInt8 := 0x85

end SqliteType

def digit (n : Nat) : UInt8 := (ascii "0123456789abcdef").getD n 0

def hex (s : List UInt8) : List UInt8 :=
  s.flatMap fun b => [digit (b.toNat / 16), digit (b.toNat % 16)]

section Decoders

variable [DoubleOps]

/-- The cell in `query_here`. -/
def queryCell : Cell → DbValue
  | .integer i => { str := intText i.toInt, type := SqliteType.integer }
  | .float d => { str := ascii (DoubleOps.format d), type := SqliteType.float }
  | .null => { str := [], type := SqliteType.nul, isNull := true }
  | .blob s => { str := hex s, type := SqliteType.blob }
  | .text s => { str := s, type := SqliteType.text }

/-- The cell in `execute_here`: `sqlite3_column_text` gives the bytes of a BLOB. -/
def executeCell : Cell → DbValue
  | .integer i => { str := intText i.toInt, type := SqliteType.integer }
  | .float d => { str := ascii (DoubleOps.format d), type := SqliteType.float }
  | .null => { type := SqliteType.nul, isNull := true }
  | .blob s => { str := s, type := SqliteType.text }
  | .text s => { str := s, type := SqliteType.text }

/-- The loop over the rows, and what follows it in both functions. -/
def fetch (db : Database) (cell : Cell → DbValue) (stmt : Statement) (c : Client) :
    Except (List UInt8) (List DbRow) × Client :=
  let rows := stmt.rows.map fun row => stmt.names.zip (row.map cell)
  match stmt.error with
  | some message => (.error (ascii "sqlite: step error: " ++ message), c)
  | none => (.ok rows, if rows = [] then ⟨db.changes, db.lastInsertRowid⟩ else c)

/-- `query_here`. -/
def queryHere (db : Database) (sql : List UInt8) (c : Client) :
    Except (List UInt8) (List DbRow) × Client :=
  match db.prepare sql with
  | .error message =>
    (.error (ascii "sqlite: " ++ message ++ [0x20, 0xE2, 0x80, 0x94] ++ ascii " SQL: " ++ sql), c)
  | .ok stmt =>
    match db.gateBefore sql with
    | some message => (.error message, c)
    | none => fetch db queryCell stmt c

/-- `execute_here` without parameters: there is nothing to bind. -/
def executeHere (db : Database) (sql : List UInt8) (c : Client) :
    Except (List UInt8) (List DbRow) × Client :=
  match db.prepare sql with
  | .error message => (.error (ascii "sqlite: " ++ message), c)
  | .ok stmt =>
    if stmt.placeholders ≠ 0 then
      (.error (ascii "db: parameter count mismatch " ++ [0xE2, 0x80, 0x94] ++ ascii " SQL " ++
        intText stmt.placeholders ++ ascii " placeholder ('?') iceriyor, 0 parameters given."), c)
    else
      match db.gateBefore sql with
      | some message => (.error message, c)
      | none => fetch db executeCell stmt c

def Cell.isBlob : Cell → Bool
  | .blob _ => true
  | _ => false

theorem queryCell_eq_executeCell_iff (x : Cell) :
    queryCell x = executeCell x ↔ x.isBlob = false := by
  cases x with
  | blob s =>
    refine ⟨fun h => ?_, nofun⟩
    have htype : SqliteType.blob = SqliteType.text := congrArg DbValue.type h
    exact absurd htype (by decide)
  | integer i => exact ⟨fun _ => rfl, fun _ => rfl⟩
  | float d => exact ⟨fun _ => rfl, fun _ => rfl⟩
  | text s => exact ⟨fun _ => rfl, fun _ => rfl⟩
  | null => exact ⟨fun _ => rfl, fun _ => rfl⟩

/-- A row decodes alike in both when it holds no BLOB. -/
theorem row_eq_iff {names : List (List UInt8)} {row : List Cell} (h : row.length = names.length) :
    names.zip (row.map queryCell) = names.zip (row.map executeCell) ↔
      ∀ x ∈ row, x.isBlob = false := by
  have hzip : names.zip (row.map queryCell) = names.zip (row.map executeCell) ↔
      row.map queryCell = row.map executeCell := by
    refine ⟨fun heq => ?_, fun heq => by rw [heq]⟩
    have hsnd := congrArg (List.map Prod.snd) heq
    rwa [List.map_snd_zip (by simp [h]), List.map_snd_zip (by simp [h])] at hsnd
  rw [hzip, List.map_inj_left]
  exact forall₂_congr fun x _ => queryCell_eq_executeCell_iff x

theorem rows_eq_iff (stmt : Statement) :
    (stmt.rows.map fun row => stmt.names.zip (row.map queryCell)) =
        (stmt.rows.map fun row => stmt.names.zip (row.map executeCell)) ↔
      ∀ row ∈ stmt.rows, ∀ x ∈ row, x.isBlob = false := by
  rw [List.map_inj_left]
  exact forall₂_congr fun row hrow => row_eq_iff (stmt.wide row hrow)

/-- Both functions give the same rows, unless one of them holds a BLOB. -/
theorem queryHere_eq_executeHere_iff {db : Database} {sql : List UInt8} {stmt : Statement}
    (c : Client) (hprepare : db.prepare sql = .ok stmt) (hselect : stmt.placeholders = 0) :
    queryHere db sql c = executeHere db sql c ↔
      db.gateBefore sql ≠ none ∨ stmt.error ≠ none ∨
        ∀ row ∈ stmt.rows, ∀ x ∈ row, x.isBlob = false := by
  rw [queryHere, executeHere, hprepare]
  dsimp only
  rw [if_neg (not_not_intro hselect)]
  cases hgate : db.gateBefore sql with
  | some message => exact ⟨fun _ => Or.inl nofun, fun _ => rfl⟩
  | none =>
    dsimp only
    rw [fetch, fetch]
    cases herror : stmt.error with
    | some message => exact ⟨fun _ => Or.inr (Or.inl nofun), fun _ => rfl⟩
    | none =>
      dsimp only
      constructor
      · intro h
        have hrows := Except.ok.inj (congrArg Prod.fst h)
        exact Or.inr (Or.inr ((rows_eq_iff stmt).mp hrows))
      · intro h
        have hblob := (h.resolve_left (absurd rfl)).resolve_left (absurd rfl)
        rw [(rows_eq_iff stmt).mpr hblob]

end Decoders

/-- One row with one cell. -/
def single (x : Cell) : Database where
  prepare := fun _ => .ok
    { placeholders := 0
      names := [ascii "x"]
      rows := [[x]]
      wide := by
        intro row hrow
        rw [List.mem_singleton.mp hrow]
        rfl
      error := none }
  gateBefore := fun _ => none
  changes := 0
  lastInsertRowid := 0

theorem queryHere_single_text :
    @queryHere .host (single (.text (ascii "AB"))) (ascii "SELECT 'AB' AS x") ⟨0, 0⟩ =
      @executeHere .host (single (.text (ascii "AB"))) (ascii "SELECT 'AB' AS x") ⟨0, 0⟩ := by
  refine (@queryHere_eq_executeHere_iff .host _ _ _ ⟨0, 0⟩ rfl rfl).mpr (Or.inr (Or.inr ?_))
  intro row hrow x hx
  rw [List.mem_singleton.mp hrow] at hx
  rw [List.mem_singleton.mp hx]
  rfl

/-- The two bytes of a BLOB come back as four digits and as a text. -/
theorem queryHere_single_blob :
    @queryHere .host (single (.blob (ascii "AB"))) (ascii "SELECT x'4142' AS x") ⟨0, 0⟩ ≠
      @executeHere .host (single (.blob (ascii "AB"))) (ascii "SELECT x'4142' AS x") ⟨0, 0⟩ := by
  intro h
  rcases (@queryHere_eq_executeHere_iff .host _ _ _ ⟨0, 0⟩ rfl rfl).mp h with h | h | h
  · exact h rfl
  · exact h rfl
  · exact absurd (h _ List.mem_cons_self _ List.mem_cons_self) (by decide)

end Sqlite

end Look
