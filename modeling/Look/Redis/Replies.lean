/-
RESP replies and what `read_response` takes of them.

A reply that holds no error is read as a whole.  One that holds an error is read up to the
end of the first: all of it when the reply is the error itself, and not the rest of the
arrays around it otherwise.  The session storage never reads that rest, so that every
command on a connection gets its own reply.
-/
import Mathlib.Algebra.Group.Int.Defs
import Mathlib.Algebra.Group.Nat.Defs
import Look.Redis.Client

namespace Look

namespace Redis

open Exec Conn

/-! ## Replies -/

inductive Reply where
  | simple (s : Bytes)
  | error (s : Bytes)
  | integer (n : Int)
  | bulk (s : Bytes)
  | nullBulk
  | nullArray
  | array (elements : List Reply)

def crlf : Bytes := [0x0D, 0x0A]

namespace Reply

mutual

def wire : Reply → Bytes
  | simple s => 0x2B :: (s ++ crlf)
  | error s => 0x2D :: (s ++ crlf)
  | integer n => 0x3A :: (intText n ++ crlf)
  | bulk s => 0x24 :: (intText s.length ++ crlf ++ (s ++ crlf))
  | nullBulk => 0x24 :: (intText (-1) ++ crlf)
  | nullArray => 0x2A :: (intText (-1) ++ crlf)
  | array elements => 0x2A :: (intText elements.length ++ crlf ++ wires elements)

def wires : List Reply → Bytes
  | [] => []
  | r :: rs => wire r ++ wires rs

end

mutual

/-- What `read_response` returns or throws: the first error of the reply; else the text of
the reply, which for an array is that of its first element. -/
def answer : Reply → Except Error Bytes
  | simple s => .ok s
  | error s => .error (ascii "Redis: " ++ s)
  | integer n => .ok (intText n)
  | bulk s => .ok s
  | nullBulk => .ok []
  | nullArray => .ok []
  | array elements => (answers elements).map (List.headD · [])

def answers : List Reply → Except Error (List Bytes)
  | [] => .ok []
  | r :: rs =>
    match answer r with
    | .error e => .error e
    | .ok v => (answers rs).map (v :: ·)

end

mutual

/-- The part of a reply behind its first error. -/
def left : Reply → Bytes
  | array elements => lefts elements
  | _ => []

def lefts : List Reply → Bytes
  | [] => []
  | r :: rs =>
    match answer r with
    | .error _ => left r ++ wires rs
    | .ok _ => lefts rs

end

/-- A line has no end of line in it and is not too long. -/
def LineFits (s : Bytes) : Prop := (∀ b ∈ s, b ≠ 0x0D ∧ b ≠ 0x0A) ∧ s.length < maxLine

/-- The reply is within the limits of the client, with so many levels left. -/
def Within (maxBulk : Nat) : Nat → Reply → Prop
  | 0, _ => False
  | _ + 1, simple s => LineFits s
  | _ + 1, error s => LineFits s
  | _ + 1, integer n => (intText n).length < maxLine
  | _ + 1, bulk s => s.length ≤ maxBulk ∧ s.length < 2 ^ 63
  | _ + 1, nullBulk => True
  | _ + 1, nullArray => True
  | depth + 1, array elements =>
    elements.length ≤ maxArray ∧ ∀ r ∈ elements, Within maxBulk depth r

end Reply

/-! ## Lines -/

variable {maxBulk : Nat} {s rest : Bytes}

theorem lineLoop_crlf (line : Bytes) (h : ∀ b ∈ s, b ≠ 0x0D ∧ b ≠ 0x0A)
    (hlen : (line ++ s).length ≤ maxLine) (rest : Bytes) :
    lineLoop line (s ++ crlf ++ rest) = (.ok (line ++ s), rest) := by
  induction s generalizing line with
  | nil =>
    rw [List.append_nil]
    rfl
  | cons c s ih =>
    rw [List.forall_mem_cons] at h
    rw [List.append_cons] at hlen
    have hline : ¬maxLine < (line ++ [c]).length := by
      rw [List.length_append] at hlen
      omega
    rw [List.cons_append, List.cons_append, lineLoop, if_neg h.1.1, if_neg h.1.2, if_neg hline,
      ih _ h.2 hlen, List.append_cons line c s]

theorem reads_line (h : ∀ b ∈ s, b ≠ 0x0D ∧ b ≠ 0x0A) (hlen : s.length ≤ maxLine) :
    Reads readLine (s ++ crlf) s := by
  intro rest
  have hloop := lineLoop_crlf [] h hlen rest
  rw [readLine, hloop]
  rfl

theorem intText_line (n : Int) : ∀ b ∈ intText n, b ≠ 0x0D ∧ b ≠ 0x0A := by
  have hbyte : ∀ b ∈ intText n, b = 0x2D ∨ 0x30 ≤ b := by
    intro b hb
    rw [intText_eq, numeral] at hb
    obtain ⟨c, hc, rfl⟩ := List.mem_map.mp hb
    rcases List.mem_append.mp hc with hc | hc
    · split at hc
      · obtain rfl := List.mem_singleton.mp hc
        exact .inl rfl
      · cases hc
    · have hd := isDigitChar_iff.mp (isDigitChar_of_mem_toDigits hc)
      refine .inr ?_
      rw [UInt8.le_iff_toNat_le, UInt8.toNat_ofNat', Nat.mod_eq_of_lt (by omega)]
      exact hd.1
  intro b hb
  rcases hbyte b hb with rfl | hle
  · decide
  · exact ⟨by rintro rfl; exact absurd hle (by decide), by rintro rfl; exact absurd hle (by decide)⟩

theorem stol_intText (i : Int64) : stol (intText i.toInt) = some i.toInt := by
  obtain ⟨pos, hpos⟩ := stoll_toInt i
  rw [stol, hpos]

theorem stol_nat {n : Nat} (h : n < 2 ^ 63) : stol (intText n) = some (n : Int) := by
  have hval := Int64.toInt_ofNat_of_lt h
  rw [← hval, stol_intText]

/-- The digits of an `int64_t` fit into a line. -/
theorem length_intText_lt {n : Nat} (h : n < 2 ^ 63) : (intText n).length < maxLine := by
  have hdigits : (Nat.toDigits 10 n).length ≤ 19 :=
    (Nat.length_toDigits_le_iff (by decide) (by decide)).mpr (by omega)
  have hmax : maxLine = 65536 := rfl
  rw [intText_eq, decide_eq_false (by omega), numeral, if_neg Bool.false_ne_true,
    List.nil_append, List.length_map, Int.natAbs_natCast]
  omega

/-! ## A reply -/

/-- A reply without an error is taken as a whole, and one with an error up to the end of the
first. -/
def TakenBy (m : Exec (Conn UInt8) Error Bytes) (r : Reply) : Prop :=
  (∀ v, r.answer = .ok v → Reads m r.wire v) ∧
    ∀ e, r.answer = .error e → ∃ x, r.wire = x ++ r.left ∧ Fails m x e

theorem TakenBy.of_ok {m : Exec (Conn UInt8) Error Bytes} {r : Reply} {v : Bytes}
    (hanswer : r.answer = .ok v) (h : Reads m r.wire v) : TakenBy m r := by
  refine ⟨fun v' hv' => ?_, fun e he => ?_⟩
  · rw [hanswer] at hv'
    cases hv'
    exact h
  · rw [hanswer] at he
    cases he

theorem taken_elements {m : Exec (Conn UInt8) Error Bytes} {l : List Nat} {rs : List Reply}
    (hlen : l.length = rs.length) (h : ∀ r ∈ rs, TakenBy m r) :
    (∀ vs, Reply.answers rs = .ok vs → Reads (mapEach l fun _ => m) (Reply.wires rs) vs) ∧
      ∀ e, Reply.answers rs = .error e →
        ∃ x, Reply.wires rs = x ++ Reply.lefts rs ∧ Fails (mapEach l fun _ => m) x e := by
  induction rs generalizing l with
  | nil =>
    obtain rfl := List.length_eq_zero_iff.mp hlen
    refine ⟨fun vs hvs => ?_, fun e he => (by cases he)⟩
    cases hvs
    exact reads_pure []
  | cons r rs ih =>
    obtain ⟨i, l, rfl⟩ := List.exists_cons_of_length_eq_add_one hlen
    rw [List.forall_mem_cons] at h
    obtain ⟨hreads, hfails⟩ := ih (Nat.succ.inj hlen) h.2
    rw [Reply.answers, Reply.wires, Reply.lefts]
    cases hanswer : r.answer with
    | error e =>
      refine ⟨fun vs hvs => (by cases hvs), fun e' he' => ?_⟩
      cases he'
      obtain ⟨x, hwire, hx⟩ := h.1.2 e hanswer
      exact ⟨x, by rw [hwire, List.append_assoc], hx.bind⟩
    | ok v =>
      have hfirst := h.1.1 v hanswer
      cases hrest : Reply.answers rs with
      | error e =>
        refine ⟨fun vs hvs => (by cases hvs), fun e' he' => ?_⟩
        cases he'
        obtain ⟨x, hwires, hx⟩ := hfails e hrest
        exact ⟨r.wire ++ x, by rw [hwires, List.append_assoc], hfirst.fails hx.bind⟩
      | ok vs =>
        refine ⟨fun vs' hvs' => ?_, fun e he => (by cases he)⟩
        cases hvs'
        exact hfirst.bind ((hreads vs hrest).map (reads_pure _))

/-- The line that every reply begins with. -/
theorem reads_first (type : UInt8) (htype : type ≠ 0x0D ∧ type ≠ 0x0A) (h : Reply.LineFits s) :
    Reads readLine (type :: (s ++ crlf)) (type :: s) :=
  reads_line (List.forall_mem_cons.mpr ⟨htype, h.1⟩) h.2

theorem lineFits_nat {n : Nat} (h : n < 2 ^ 63) : Reply.LineFits (intText n) :=
  ⟨intText_line n, length_intText_lt h⟩

theorem reads_bulk (hmax : s.length ≤ maxBulk) :
    Reads (readBulk maxBulk s.length) (s ++ crlf) s := by
  have hrecv : Reads (recvBulk s.length) s s := by
    intro rest
    rw [recvBulk, if_pos (by rw [List.length_append]; exact Nat.le_add_right _ _), List.take_left,
      List.drop_left]
  rw [readBulk, if_neg (Int.not_lt.mpr (Int.natCast_nonneg _)), Int.toNat_natCast,
    if_neg (Nat.not_lt.mpr hmax)]
  exact hrecv.bind ((reads_line (s := []) nofun (Nat.zero_le _)).map (reads_pure s))

theorem taken_readLevel {depth : Nat} {r : Reply} (h : r.Within maxBulk depth) :
    TakenBy (readLevel maxBulk depth) r := by
  induction depth generalizing r with
  | zero => cases h
  | succ depth ih =>
    rw [readLevel]
    cases r with
    | simple s => exact .of_ok rfl ((reads_first _ (by decide) h).map (reads_pure s))
    | error s =>
      refine ⟨fun v hv => (by cases hv), fun e he => ?_⟩
      cases he
      have hfails : Fails (readTyped maxBulk (readLevel maxBulk depth) (0x2D :: s)) []
          (ascii "Redis: " ++ s) := fun _ => rfl
      refine ⟨_, ?_, (reads_first _ (by decide) h).fails hfails⟩
      exact (List.append_nil _).symm.trans (List.append_nil _).symm
    | integer n =>
      exact .of_ok rfl ((reads_first _ (by decide) ⟨intText_line n, h⟩).map (reads_pure _))
    | bulk s =>
      have hlen : readTyped maxBulk (readLevel maxBulk depth) (0x24 :: intText s.length) =
          readBulk maxBulk s.length := by
        rw [readTyped, if_neg (by decide), if_neg (by decide), if_neg (by decide), if_pos rfl,
          stol_nat h.2]
        dsimp only
        rw [if_neg (by omega)]
      refine .of_ok rfl ((reads_first _ (by decide) (lineFits_nat h.2)).bind ?_)
      rw [hlen]
      exact reads_bulk h.1
    | nullBulk =>
      exact .of_ok rfl ((reads_first _ (by decide) ⟨intText_line (-1), by decide⟩).map (reads_pure []))
    | nullArray =>
      exact .of_ok rfl ((reads_first _ (by decide) ⟨intText_line (-1), by decide⟩).map (reads_pure []))
    | array elements =>
      obtain ⟨hmax, helements⟩ := h
      have hnat : elements.length < 2 ^ 63 := Nat.lt_of_le_of_lt hmax (by decide)
      have hfirst := reads_first 0x2A (by decide) (lineFits_nat hnat)
      rcases Nat.eq_zero_or_pos elements.length with hzero | hpos
      · obtain rfl := List.length_eq_zero_iff.mp hzero
        exact .of_ok rfl (hfirst.map (reads_pure []))
      · have hcount : readTyped maxBulk (readLevel maxBulk depth) (0x2A :: intText elements.length) =
            mapEach (List.range elements.length) (fun _ => readLevel maxBulk depth) >>=
              fun vs => pure (vs.headD []) := by
          rw [readTyped, if_neg (by decide), if_neg (by decide), if_neg (by decide),
            if_neg (by decide), if_pos rfl, stol_nat hnat]
          dsimp only
          rw [if_neg (by omega), Int.toNat_natCast, if_neg (Nat.not_lt.mpr hmax)]
        obtain ⟨hreads, hfails⟩ := taken_elements (m := readLevel maxBulk depth)
          (l := List.range elements.length) List.length_range fun r hr => ih (helements r hr)
        rw [TakenBy, Reply.answer, Reply.wire, Reply.left]
        cases hanswers : Reply.answers elements with
        | error e =>
          refine ⟨fun v hv => (by cases hv), fun e' he' => ?_⟩
          cases he'
          obtain ⟨x, hwires, hx⟩ := hfails e hanswers
          refine ⟨0x2A :: (intText elements.length ++ crlf) ++ x, by rw [hwires]; simp, ?_⟩
          refine hfirst.fails ?_
          rw [hcount]
          exact hx.bind
        | ok vs =>
          refine ⟨fun v hv => ?_, fun e he => (by cases he)⟩
          cases hv
          refine hfirst.bind ?_
          rw [hcount]
          exact (hreads vs hanswers).map (reads_pure _)

/-- What a reply within the limits of the client leaves. -/
theorem readResponse_wire {r : Reply} (h : r.Within maxBulk (maxDepth + 1)) (rest : Bytes) :
    readResponse maxBulk (some (r.wire ++ rest)) =
      match r.answer with
      | .ok v => .ok v (some rest)
      | .error e => .error e (some (r.left ++ rest)) := by
  obtain ⟨hreads, hfails⟩ := taken_readLevel h
  rw [readResponse]
  cases hanswer : r.answer with
  | ok v => exact hreads v hanswer rest
  | error e =>
    obtain ⟨x, hwire, hx⟩ := hfails e hanswer
    rw [hwire, List.append_assoc]
    exact hx (r.left ++ rest)

/-- A command on a connection without unread bytes, or on a new one, gets its own reply and
leaves no connection with unread bytes. -/
theorem sessionCommand_wire {r : Reply} (h : r.Within maxBulk (maxDepth + 1))
    {redis : Conn UInt8} (hredis : redis.getD [] = []) :
    ∃ redis', redis'.getD [] = [] ∧ sessionCommand maxBulk r.wire redis =
      match r.answer with
      | .ok v => .ok v redis'
      | .error e => .error e redis' := by
  have hread := readResponse_wire h []
  rw [List.append_nil] at hread
  rw [sessionCommand, hredis, List.nil_append, hread]
  cases r.answer with
  | ok v => exact ⟨some [], rfl, rfl⟩
  | error e => exact ⟨none, rfl, rfl⟩

theorem session_wires {rs : List Reply} (h : ∀ r ∈ rs, r.Within maxBulk (maxDepth + 1))
    {redis : Conn UInt8} (hredis : redis.getD [] = []) :
    session maxBulk (rs.map Reply.wire) redis = rs.map Reply.answer := by
  induction rs generalizing redis with
  | nil => rfl
  | cons r rs ih =>
    rw [List.forall_mem_cons] at h
    obtain ⟨redis', hredis', hcommand⟩ := sessionCommand_wire h.1 hredis
    rw [List.map_cons, List.map_cons, session, hcommand]
    cases r.answer with
    | ok v => exact congrArg _ (ih h.2 hredis')
    | error e => exact congrArg _ (ih h.2 hredis')

/-- For every reply within the limits, whatever follows it: without an error in it
`read_response` takes exactly the reply, and with one it takes the reply up to the end of the
first, which is all of it when the reply is an error itself.  In every run of the session
storage each command gets its own reply. -/
theorem replies_in_order (maxBulk : Nat) :
    (∀ r : Reply, r.Within maxBulk (maxDepth + 1) → ∀ rest,
      readResponse maxBulk (some (r.wire ++ rest)) =
        match r.answer with
        | .ok v => .ok v (some rest)
        | .error e => .error e (some (r.left ++ rest))) ∧
    (∀ s, (Reply.error s).left = []) ∧
    ∀ rs : List Reply, (∀ r ∈ rs, r.Within maxBulk (maxDepth + 1)) →
      session maxBulk (rs.map Reply.wire) none = rs.map Reply.answer :=
  ⟨fun _ h rest => readResponse_wire h rest, fun _ => rfl, fun _ h => session_wires h rfl⟩

/-- An error in an array and a reply behind it. -/
def failedBatch : Reply := .array [.error (ascii "ERR"), .integer 7]

theorem within_failedBatch : failedBatch.Within 64 (maxDepth + 1) := by
  refine ⟨by decide, List.forall_mem_cons.mpr ⟨⟨by decide +kernel, by decide⟩, ?_⟩⟩
  rw [List.forall_mem_singleton]
  exact (by decide : (intText 7).length < maxLine)

theorem replies_in_order_batch :
    session 64 [failedBatch.wire, (Reply.simple (ascii "OK")).wire] none =
      [.error (ascii "Redis: ERR"), .ok (ascii "OK")] := by
  obtain ⟨-, -, hruns⟩ := replies_in_order 64
  have hsession := hruns [failedBatch, .simple (ascii "OK")]
    (List.forall_mem_cons.mpr ⟨within_failedBatch, by
      rw [List.forall_mem_singleton]
      exact ⟨by decide +kernel, by decide⟩⟩)
  exact hsession

/-- The integer behind the error is not read. -/
theorem error_in_array_unread :
    readResponse 64 (some failedBatch.wire) =
      .error (ascii "Redis: ERR") (some (Reply.integer 7).wire) := by
  have h := readResponse_wire within_failedBatch []
  rwa [List.append_nil] at h

end Redis

end Look
