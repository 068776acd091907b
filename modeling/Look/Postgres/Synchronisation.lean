/-
Whether the connection stands behind the answer when a request ends.

A `Reply` is what a server sends for one request: messages and a ReadyForQuery, or messages
and the end of the connection in the middle of another one.  A request ends in step when the
socket is closed or exactly the reply was read.  Two of the ways out leave the rest of the
reply for the next request: a malformed DataRow, and a message over the limit behind an
error.
-/
import Mathlib.Algebra.Group.Int.Defs
import Mathlib.Algebra.Group.Nat.Defs
import Look.Postgres.Client

namespace Look

namespace Postgres

open Exec Conn

/-! ## Replies -/

namespace Message

def frame (m : Message) : Bytes := m.type :: (toBytes 4 (m.body.length + 4) ++ m.body)

/-- The length field has room for the body. -/
def Sized (m : Message) : Prop := m.body.length + 4 < 2 ^ 32

end Message

/-- What stands behind the messages. -/
inductive Ending where
  | ready (status : Bytes)
  | lost (m : Message) (k : Nat)

namespace Ending

/-- The bytes from there on; there are none behind the end of the connection. -/
def stream (rest : Bytes) : Ending → Bytes
  | ready status => Message.frame ⟨0x5A, status⟩ ++ rest
  | lost m k => m.frame.take k

def Legal : Ending → Prop
  | ready status => Message.Sized ⟨0x5A, status⟩
  | lost m k => m.Sized ∧ k < m.frame.length

/-- Whether the length of the message behind the others is below the limit, as far as it is
read. -/
def Fits (maxMsg : Nat) : Ending → Prop
  | ready status => status.length ≤ maxMsg
  | lost m k => 5 ≤ k → m.body.length ≤ maxMsg

end Ending

structure Reply where
  messages : List Message
  ending : Ending
  not_ready : ∀ m ∈ messages, m.type ≠ 0x5A
  sized : ∀ m ∈ messages, m.Sized
  legal : ending.Legal

/-- The bytes on the connection, with those behind the reply. -/
def Reply.stream (reply : Reply) (rest : Bytes) : Bytes :=
  reply.messages.flatMap Message.frame ++ reply.ending.stream rest

/-- The fields of a DataRow are as long as they say. -/
def FieldsFit : Nat → Bytes → Prop
  | 0, _ => True
  | n + 1, p =>
    4 ≤ p.length ∧
      (ofBytes (p.take 4) = 2 ^ 32 - 1 ∧ FieldsFit n (p.drop 4) ∨
        ofBytes (p.take 4) < 2 ^ 31 ∧ ofBytes (p.take 4) ≤ (p.drop 4).length ∧
          FieldsFit n ((p.drop 4).drop (ofBytes (p.take 4))))

/-- Whether a DataRow is read without an error; one without a number of fields is passed
over. -/
def WellFormed (body : Bytes) : Prop :=
  body.length < 2 ∨ FieldsFit (ofBytes (body.take 2)) (body.drop 2)

/-- Up to the first error or message over the limit every DataRow is well formed, and no
message behind the error is over the limit. -/
def Safe (maxMsg : Nat) (ending : Ending) : List Message → Prop
  | [] => True
  | m :: ms =>
    if maxMsg < m.body.length then True
    else if m.type = 0x45 then (∀ m' ∈ ms, m'.body.length ≤ maxMsg) ∧ ending.Fits maxMsg
    else (m.type = 0x44 → WellFormed m.body) ∧ Safe maxMsg ending ms

/-- The socket is closed, or exactly the reply was read. -/
def InStep (ending : Ending) (rest : Bytes) (c : Client) : Prop :=
  c.conn = none ∨ (∃ status, ending = .ready status) ∧ c.conn = some rest

/-- The client in which a request ends, by a return or a throw, is in step. -/
def EndsInStep {α : Type} (ending : Ending) (rest : Bytes) : Res Client Error α → Prop
  | .ok _ c => InStep ending rest c
  | .error _ c => InStep ending rest c
  | .timeout => False

/-! ## One message -/

variable {maxMsg : Nat} {m : Message} {ms : List Message} {ending : Ending} {rest : Bytes}

theorem length_frame (m : Message) : m.frame.length = m.body.length + 5 := by
  rw [Message.frame, List.length_cons, List.length_append, length_toBytes]
  omega

theorem recv_lost {e : Error} {n : Nat} {s : Bytes} (h : s.length < n) :
    recv e n (some s) = .error e none := by
  rw [recv, if_neg (Nat.not_le.mpr h)]

theorem recv_append {e : Error} {n : Nat} {s rest : Bytes} (h : s.length = n) :
    recv e n (some (s ++ rest)) = .ok s (some rest) := by
  rw [← h]
  exact reads_recv e s rest

variable (maxMsg) in
/-- The type and the length of a message are read first. -/
theorem readMessage_header (h : m.Sized) (s : Bytes) :
    Client.readMessage maxMsg (some (m.type :: (toBytes 4 (m.body.length + 4) ++ s))) =
      if maxMsg < m.body.length then
        .error (utf8 "db postgres: message size limit exceeded (LOOK_PG_MAX_MSG)") (some s)
      else if m.body.length ≤ s.length then
        .ok ⟨m.type, s.take m.body.length⟩ (some (s.drop m.body.length))
      else .error (utf8 "db postgres: connection lost reading body") none := by
  have hlen : ofBytes (toBytes 4 (m.body.length + 4)) = m.body.length + 4 := ofBytes_toBytes 4 _ h
  rw [Client.readMessage, bind_apply, ← List.singleton_append, recv_append List.length_singleton]
  dsimp only
  rw [bind_apply, recv_append (length_toBytes 4 _)]
  dsimp only
  rw [hlen, if_neg (by omega), Nat.add_sub_cancel]
  split
  · rfl
  · rw [bind_apply]
    by_cases hpos : 0 < m.body.length
    · rw [if_pos hpos, recv]
      by_cases hle : m.body.length ≤ s.length
      · rw [if_pos hle, if_pos hle]
        rfl
      · rw [if_neg hle, if_neg hle]
    · rw [if_neg hpos, if_pos (by omega)]
      have hzero : m.body.length = 0 := by omega
      rw [hzero]
      rfl

theorem readMessage_frame (h : m.Sized) (rest : Bytes) :
    Client.readMessage maxMsg (some (m.frame ++ rest)) =
      if maxMsg < m.body.length then
        .error (utf8 "db postgres: message size limit exceeded (LOOK_PG_MAX_MSG)")
          (some (m.body ++ rest))
      else .ok m (some rest) := by
  have hread := readMessage_header maxMsg h (m.body ++ rest)
  have hle : m.body.length ≤ (m.body ++ rest).length := by
    rw [List.length_append]
    exact Nat.le_add_right _ _
  rw [if_pos hle, List.take_left, List.drop_left] at hread
  rw [Message.frame, List.cons_append, List.append_assoc]
  exact hread

variable (maxMsg) in
/-- A message that is cut off ends in an error, which leaves bytes unread only when the
length was read and is over the limit. -/
theorem readMessage_cut {k : Nat} (h : m.Sized) (hk : k < m.frame.length) :
    ∃ e conn, Client.readMessage maxMsg (some (m.frame.take k)) = .error e conn ∧
      (conn = none ↔ (5 ≤ k → m.body.length ≤ maxMsg)) := by
  by_cases hheader : 5 ≤ k
  · have hsplit : m.frame.take k =
        m.type :: (toBytes 4 (m.body.length + 4) ++ m.body.take (k - 5)) := by
      have hlen := length_toBytes 4 (m.body.length + 4)
      obtain ⟨k', rfl⟩ : ∃ k', k = k' + 5 := ⟨k - 5, by omega⟩
      rw [Message.frame, List.take_succ_cons, List.take_append, hlen,
        List.take_of_length_le (by omega)]
      rfl
    have hread := readMessage_header maxMsg h (m.body.take (k - 5))
    have hshort : ¬m.body.length ≤ (m.body.take (k - 5)).length := by
      rw [length_frame] at hk
      rw [List.length_take]
      omega
    rw [← hsplit, if_neg hshort] at hread
    rw [hread]
    by_cases hmax : maxMsg < m.body.length
    · rw [if_pos hmax]
      exact ⟨_, _, rfl, by simp [hheader, hmax]⟩
    · rw [if_neg hmax]
      exact ⟨_, _, rfl, by simp [Nat.le_of_not_lt hmax]⟩
  · cases k with
    | zero =>
      have hread : Client.readMessage maxMsg (some (m.frame.take 0)) =
          .error (utf8 "db postgres: connection lost") none := by
        rw [List.take_zero, Client.readMessage, bind_apply, recv_lost (by decide)]
      exact ⟨_, none, hread, by simp⟩
    | succ k =>
      have hlen : ((toBytes 4 (m.body.length + 4) ++ m.body).take k).length < 4 := by
        rw [List.length_take]
        omega
      have hread : Client.readMessage maxMsg (some (m.frame.take (k + 1))) =
          .error (utf8 "db postgres: connection lost reading length") none := by
        rw [Message.frame, List.take_succ_cons, Client.readMessage, bind_apply,
          ← List.singleton_append, recv_append List.length_singleton]
        dsimp only
        rw [bind_apply, recv_lost hlen]
      exact ⟨_, none, hread, by simp [hheader]⟩

/-! ## Behind an error -/

variable {c : Client}

/-- Bytes of the reply that were not read are left for the next request. -/
theorem not_inStep {x : Bytes} (h : c.conn = some (x ++ ending.stream rest)) :
    ¬InStep ending rest c := by
  rintro (hnone | ⟨⟨status, rfl⟩, hrest⟩)
  · rw [h] at hnone
    cases hnone
  · have hlen := congrArg List.length (Option.some.inj (h.symm.trans hrest))
    rw [List.length_append, Ending.stream, List.length_append, length_frame] at hlen
    omega

theorem inStep_ready (status rest : Bytes) (c : Client) (b : Bool) :
    InStep (.ready status) rest { c with conn := some rest, inTxn := b } :=
  .inr ⟨⟨status, rfl⟩, rfl⟩

theorem drainLoop_stream (maxMsg fuel : Nat) (c : Client) (rest : Bytes)
    (hready : ∀ m ∈ ms, m.type ≠ 0x5A)
    (hsized : ∀ m ∈ ms, m.Sized) (hlegal : ending.Legal) (hfuel : ms.length < fuel) :
    ∃ c', Client.drainLoop maxMsg fuel
        { c with conn := some (ms.flatMap Message.frame ++ ending.stream rest) } = .ok () c' ∧
      (InStep ending rest c' ↔ (∀ m ∈ ms, m.body.length ≤ maxMsg) ∧ ending.Fits maxMsg) := by
  induction ms generalizing fuel with
  | nil =>
    obtain ⟨fuel, rfl⟩ := Nat.exists_eq_succ_of_ne_zero (Nat.ne_of_gt hfuel)
    rw [List.flatMap_nil, List.nil_append, Client.drainLoop]
    dsimp only
    cases ending with
    | ready status =>
      rw [Ending.stream, readMessage_frame hlegal]
      by_cases hmax : maxMsg < status.length
      · rw [if_pos hmax]
        refine ⟨_, rfl, ⟨fun hstep => ?_, fun hfits => absurd hfits.2 (Nat.not_le.mpr hmax)⟩⟩
        rcases hstep with hnone | ⟨-, hrest⟩
        · cases hnone
        · have hlen : (status ++ rest).length = rest.length :=
            congrArg List.length (Option.some.inj hrest)
          rw [List.length_append] at hlen
          omega
      · rw [if_neg hmax]
        refine ⟨_, if_pos rfl, ?_⟩
        exact ⟨fun _ => ⟨nofun, Nat.le_of_not_lt hmax⟩, fun _ => inStep_ready status rest c _⟩
    | lost m k =>
      obtain ⟨e, conn, hread, hconn⟩ := readMessage_cut maxMsg hlegal.1 hlegal.2
      rw [Ending.stream, hread]
      refine ⟨_, rfl, ?_⟩
      constructor
      · rintro (hnone | ⟨⟨status, hending⟩, -⟩)
        · exact ⟨nofun, hconn.mp hnone⟩
        · cases hending
      · exact fun hfits => .inl (hconn.mpr hfits.2)
  | cons m ms ih =>
    obtain ⟨fuel, rfl⟩ := Nat.exists_eq_succ_of_ne_zero (Nat.ne_of_gt (Nat.zero_lt_of_lt hfuel))
    rw [List.forall_mem_cons] at hready hsized
    rw [List.flatMap_cons, List.append_assoc, Client.drainLoop]
    dsimp only
    rw [readMessage_frame hsized.1, List.forall_mem_cons]
    by_cases hmax : maxMsg < m.body.length
    · rw [if_pos hmax]
      refine ⟨_, rfl, ⟨fun hstep => ?_, fun hfits => absurd hfits.1.1 (Nat.not_le.mpr hmax)⟩⟩
      refine absurd hstep (not_inStep (x := m.body ++ ms.flatMap Message.frame) ?_)
      rw [List.append_assoc]
    · obtain ⟨c', hdrain, hstep⟩ := ih fuel hready.2 hsized.2 (Nat.lt_of_succ_lt_succ hfuel)
      rw [if_neg hmax]
      dsimp only
      rw [if_neg hready.1, hdrain]
      exact ⟨c', rfl, hstep.trans (by simp [Nat.le_of_not_lt hmax])⟩

theorem length_le_flatMap_frame (ms : List Message) :
    ms.length ≤ (ms.flatMap Message.frame).length := by
  induction ms with
  | nil => exact Nat.le_refl 0
  | cons m ms ih =>
    rw [List.flatMap_cons, List.length_append, length_frame, List.length_cons]
    omega

/-! ## The answer -/

theorem fields_ok_iff (columns : List ColInfo) (ncols : Nat) (n : Nat) (p : Bytes) :
    (∃ row, fields columns ncols n p = .ok row) ↔ FieldsFit n p := by
  induction n generalizing p with
  | zero => exact ⟨fun _ => trivial, fun _ => ⟨[], rfl⟩⟩
  | succ n ih =>
    have hstep : ∀ (x : Bytes × DbValue) (q : Bytes), (∃ row, (do
        let row ← fields columns ncols n q
        pure (x :: row) : Except Error DbRow) = .ok row) ↔ FieldsFit n q := by
      intro x q
      rw [← ih q]
      cases fields columns ncols n q with
      | ok row => exact ⟨fun _ => ⟨row, rfl⟩, fun _ => ⟨x :: row, rfl⟩⟩
      | error e => exact ⟨nofun, nofun⟩
    rw [fields, FieldsFit]
    dsimp only
    by_cases hhead : p.length < 4
    · rw [if_pos hhead]
      exact ⟨nofun, fun h => absurd h.1 (Nat.not_le.mpr hhead)⟩
    · rw [if_neg hhead, and_iff_right (Nat.le_of_not_lt hhead)]
      by_cases hnull : ofBytes (p.take 4) = 2 ^ 32 - 1
      · rw [if_pos hnull, hstep, hnull]
        simp
      · rw [if_neg hnull]
        by_cases hneg : 2 ^ 31 ≤ ofBytes (p.take 4)
        · rw [if_pos hneg]
          exact ⟨nofun, fun h => h.elim (fun h => absurd h.1 hnull)
            fun h => absurd h.1 (Nat.not_lt.mpr hneg)⟩
        · rw [if_neg hneg]
          by_cases hlong : (p.drop 4).length < ofBytes (p.take 4)
          · rw [if_pos hlong]
            exact ⟨nofun, fun h => h.elim (fun h => absurd h.1 hnull)
              fun h => absurd h.2.1 (Nat.not_le.mpr hlong)⟩
          · rw [if_neg hlong, hstep]
            exact ⟨fun h => .inr ⟨Nat.lt_of_not_le hneg, Nat.le_of_not_lt hlong, h⟩,
              fun h => h.elim (fun h => absurd h.1 hnull) fun h => h.2.2⟩

theorem readOrClose_frame (h : m.Sized) (s : Bytes) :
    Client.readOrClose maxMsg { c with conn := some (m.frame ++ s) } =
      if maxMsg < m.body.length then
        .error (utf8 "db postgres: message size limit exceeded (LOOK_PG_MAX_MSG)")
          { c with conn := none }
      else .ok m { c with conn := some s } := by
  rw [Client.readOrClose]
  dsimp only
  rw [readMessage_frame h]
  split
  · rename_i heq
    split at heq
    · cases heq
    · rename_i hmax
      cases heq
      rw [if_neg hmax]
  · rename_i heq
    split at heq
    · rename_i hmax
      cases heq
      rw [if_pos hmax]
    · cases heq
  · rename_i heq
    split at heq <;> cases heq

/-- A step of the loop that goes on with the messages behind it. -/
theorem answerLoop_stream (maxMsg fuel : Nat) (columns : List ColInfo) (rows : List DbRow)
    (c : Client) (rest : Bytes)
    (hready : ∀ m ∈ ms, m.type ≠ 0x5A) (hsized : ∀ m ∈ ms, m.Sized) (hlegal : ending.Legal)
    (hfuel : ms.length < fuel) :
    EndsInStep ending rest (Client.answerLoop maxMsg fuel columns rows
        { c with conn := some (ms.flatMap Message.frame ++ ending.stream rest) }) ↔
      Safe maxMsg ending ms := by
  induction ms generalizing fuel columns rows c with
  | nil =>
    obtain ⟨fuel, rfl⟩ := Nat.exists_eq_succ_of_ne_zero (Nat.ne_of_gt hfuel)
    rw [List.flatMap_nil, List.nil_append, Client.answerLoop, bind_apply, Safe, iff_true]
    cases ending with
    | ready status =>
      rw [Ending.stream, readOrClose_frame hlegal]
      by_cases hmax : maxMsg < status.length
      · rw [if_pos hmax]
        exact .inl rfl
      · rw [if_neg hmax]
        exact inStep_ready status rest c _
    | lost m k =>
      obtain ⟨e, conn, hread, -⟩ := readMessage_cut maxMsg hlegal.1 hlegal.2
      rw [Ending.stream, Client.readOrClose, hread]
      exact .inl rfl
  | cons m ms ih =>
    obtain ⟨fuel, rfl⟩ := Nat.exists_eq_succ_of_ne_zero (Nat.ne_of_gt (Nat.zero_lt_of_lt hfuel))
    rw [List.forall_mem_cons] at hready hsized
    have hrest : ∀ (columns : List ColInfo) (rows : List DbRow) (c : Client),
        EndsInStep ending rest (Client.answerLoop maxMsg fuel columns rows
          { c with conn := some (ms.flatMap Message.frame ++ ending.stream rest) }) ↔
        Safe maxMsg ending ms := fun _ _ _ =>
      ih _ _ _ _ hready.2 hsized.2 (Nat.lt_of_succ_lt_succ hfuel)
    rw [List.flatMap_cons, List.append_assoc, Client.answerLoop, bind_apply,
      readOrClose_frame hsized.1, Safe]
    by_cases hmax : maxMsg < m.body.length
    · rw [if_pos hmax, if_pos hmax, iff_true]
      exact .inl rfl
    · rw [if_neg hmax, if_neg hmax]
      dsimp only
      by_cases hT : m.type = 0x54
      · have hE : m.type ≠ 0x45 := by rw [hT]; decide
        have hD : m.type ≠ 0x44 := by rw [hT]; decide
        rw [if_pos hT, if_neg hE, hrest]
        simp [hD]
      · rw [if_neg hT]
        by_cases hD : m.type = 0x44
        · have hE : m.type ≠ 0x45 := by rw [hD]; decide
          rw [if_pos hD, if_neg hE, WellFormed]
          by_cases hshort : m.body.length < 2
          · rw [if_pos hshort, hrest]
            simp [hshort]
          · rw [if_neg hshort, or_iff_right hshort, imp_iff_right hD]
            have hfields := fields_ok_iff columns (ofBytes (m.body.take 2))
              (ofBytes (m.body.take 2)) (m.body.drop 2)
            rw [← dataRow] at hfields
            cases hrow : dataRow columns m.body with
            | error e =>
              have hbad : ¬FieldsFit (ofBytes (m.body.take 2)) (m.body.drop 2) := by
                rw [← hfields, hrow]
                nofun
              refine ⟨fun hstep => ?_, fun hsafe => absurd hsafe.1 hbad⟩
              exact absurd hstep (not_inStep (x := ms.flatMap Message.frame) rfl)
            | ok row =>
              rw [hrow] at hfields
              dsimp only
              rw [hrest, and_iff_right (hfields.mp ⟨row, rfl⟩)]
        · rw [if_neg hD]
          by_cases hC : m.type = 0x43
          · have hE : m.type ≠ 0x45 := by rw [hC]; decide
            rw [if_pos hC, if_neg hE, bind_apply, modify_apply]
            dsimp only
            have hnext := hrest columns rows
              { c with affectedRows := affected m.body c.affectedRows }
            simp [hD, hnext]
          · rw [if_neg hC, if_neg hready.1]
            by_cases hE : m.type = 0x45
            · have hlen := length_le_flatMap_frame ms
              obtain ⟨c', hdrain, hstep⟩ := drainLoop_stream maxMsg
                ((ms.flatMap Message.frame ++ ending.stream rest).length + 1) c rest
                hready.2 hsized.2 hlegal (by rw [List.length_append]; omega)
              rw [if_pos hE, if_pos hE, bind_apply, Client.drain, Option.getD_some, hdrain]
              exact hstep
            · rw [if_neg hE, if_neg hE, hrest]
              simp [hD]

/-! ## Requests -/

/-- The connection takes the bytes. -/
def Client.Takes (c : Client) (bytes : Bytes) : Prop := ∀ n ∈ c.room, bytes.length ≤ n

def Client.wrote (c : Client) (bytes : Bytes) : Client :=
  { c with sent := c.sent ++ bytes, room := c.room.map (· - bytes.length) }

/-- All of the bytes are written, or the socket is closed. -/
def Writes (m : Exec Client Error Unit) (bytes : Bytes) : Prop :=
  ∀ c : Client, (c.Takes bytes → m c = .ok () (c.wrote bytes)) ∧
    (¬c.Takes bytes → ∃ e c', m c = .error e c' ∧ c'.conn = none)

theorem writes_sendBytes (bytes : Bytes) : Writes (Client.sendBytes bytes) bytes := by
  intro c
  rw [Client.Takes, Client.wrote, Client.sendBytes]
  cases hroom : c.room with
  | none =>
    refine ⟨fun _ => ?_, fun hnot => absurd nofun hnot⟩
    simp
  | some n =>
    dsimp only
    by_cases hle : bytes.length ≤ n
    · rw [if_pos hle]
      refine ⟨fun _ => rfl, fun hnot => absurd ?_ hnot⟩
      rintro _ ⟨⟩
      exact hle
    · rw [if_neg hle]
      exact ⟨fun htakes => absurd (htakes n rfl) hle, fun _ => ⟨_, _, rfl, rfl⟩⟩

theorem writes_nil : Writes (pure ()) [] := by
  intro c
  have hwrote : c.wrote [] = c := by
    rw [Client.wrote, List.append_nil, List.length_nil]
    simp
  refine ⟨fun _ => ?_, fun hnot => absurd (fun n _ => Nat.zero_le n) hnot⟩
  rw [hwrote]
  rfl

theorem Writes.bind {m m' : Exec Client Error Unit} {bytes bytes' : Bytes} (h : Writes m bytes)
    (h' : Writes m' bytes') : Writes (m >>= fun _ => m') (bytes ++ bytes') := by
  intro c
  have hsplit : c.Takes (bytes ++ bytes') ↔ c.Takes bytes ∧ (c.wrote bytes).Takes bytes' := by
    rw [Client.Takes, Client.Takes, Client.Takes, Client.wrote]
    cases hroom : c.room with
    | none => simp
    | some n =>
      simp only [Option.mem_def, Option.some.injEq, forall_eq', Option.map_some,
        List.length_append]
      omega
  have hwrote : (c.wrote bytes).wrote bytes' = c.wrote (bytes ++ bytes') := by
    rw [Client.wrote, Client.wrote, Client.wrote]
    simp [Nat.sub_sub, Function.comp_def]
  rw [hsplit, bind_apply]
  by_cases hfirst : c.Takes bytes
  · rw [(h c).1 hfirst]
    dsimp only
    rw [← hwrote, and_iff_right hfirst]
    exact h' (c.wrote bytes)
  · obtain ⟨e, c', hrun, hconn⟩ := (h c).2 hfirst
    rw [hrun]
    exact ⟨fun hboth => absurd hboth.1 hfirst, fun _ => ⟨e, c', rfl, hconn⟩⟩

theorem writes_sendMessage (type : UInt8) (body : Bytes) :
    Writes (Client.sendMessage type body) (type :: (toBytes 4 (4 + body.length) ++ body)) := by
  rw [Client.sendMessage, ← List.cons_append]
  refine (writes_sendBytes _).bind ?_
  split
  · rename_i hbody
    rw [hbody]
    exact writes_nil
  · exact writes_sendBytes body

section Requests

variable [DoubleOps]

/-- A request by either of the two functions. -/
inductive Request where
  | simple (sql : Bytes)
  | extended (sql : Bytes) (params : List DbParam)

namespace Request

def run (maxMsg : Nat) : Request → Exec Client Error (List DbRow)
  | simple sql => Client.simpleQuery maxMsg sql
  | extended sql params => Client.extendedQueryRaw maxMsg sql params

/-- A message of the client. -/
def message (type : UInt8) (body : Bytes) : Bytes := type :: (toBytes 4 (4 + body.length) ++ body)

def bytes : Request → Bytes
  | simple sql => message 0x51 (sql ++ [0])
  | extended sql params =>
    message 0x50 (0 :: (Client.placeholders none 0 sql ++ [0, 0, 0])) ++
      (message 0x42 (Client.bindBody params) ++ (message 0x44 [0x50, 0] ++
        (message 0x45 [0, 0, 0, 0, 0] ++ message 0x53 [])))

end Request

theorem exists_send (maxMsg : Nat) (request : Request) :
    ∃ send : Exec Client Error Unit, Writes send request.bytes ∧
      request.run maxMsg = send >>= fun _ => Client.answer maxMsg := by
  cases request with
  | simple sql => exact ⟨_, writes_sendMessage 0x51 (sql ++ [0]), rfl⟩
  | extended sql params =>
    refine ⟨Client.sendExtended sql params, ?_, rfl⟩
    exact (writes_sendMessage _ _).bind ((writes_sendMessage _ _).bind
      ((writes_sendMessage _ _).bind ((writes_sendMessage _ _).bind (writes_sendMessage _ _))))

/-- For every request and everything that a server can send for it: the request ends with the
socket closed or the reply read, and nothing of it left for the next request, if and only
if the request does not reach the server as a whole or the reply is safe. -/
theorem request_in_step_iff (maxMsg : Nat) (request : Request) (reply : Reply) (rest : Bytes)
    (c : Client) :
    EndsInStep reply.ending rest
        (request.run maxMsg { c with conn := some (reply.stream rest) }) ↔
      (c.Takes request.bytes → Safe maxMsg reply.ending reply.messages) := by
  obtain ⟨send, hwrites, hrun⟩ := exists_send maxMsg request
  obtain ⟨hsent, hfailed⟩ := hwrites { c with conn := some (reply.stream rest) }
  rw [hrun, bind_apply]
  by_cases htakes : c.Takes request.bytes
  · have hlen := length_le_flatMap_frame reply.messages
    have hanswer := answerLoop_stream maxMsg ((reply.stream rest).length + 1) [] []
      { c.wrote request.bytes with affectedRows := 0 } rest reply.not_ready reply.sized
      reply.legal (by rw [Reply.stream, List.length_append]; omega)
    rw [hsent htakes, imp_iff_right htakes]
    exact hanswer
  · obtain ⟨e, c', hrun, hconn⟩ := hfailed htakes
    rw [hrun]
    exact ⟨fun _ h => absurd h htakes, fun _ => .inl hconn⟩

end Requests

/-! A DataRow that announces a field and has none. -/

def shortRow : Reply where
  messages := [⟨0x44, [0, 1]⟩, ⟨0x43, ascii "SELECT 1" ++ [0]⟩]
  ending := .ready [0x49]
  not_ready := by decide
  sized := by
    rw [List.forall_mem_cons, List.forall_mem_singleton, Message.Sized, Message.Sized]
    decide
  legal := by
    rw [Ending.Legal, Message.Sized]
    decide

def connected (reply : Reply) : Client := ⟨some (reply.stream []), [], none, false, 0⟩

/-- The next request reads the rest of the reply: a CommandComplete and a ReadyForQuery. -/
theorem short_row_out_of_step :
    ∃ e c, Client.simpleQuery (256 * 1024 * 1024) (ascii "select 1") (connected shortRow) =
        .error e c ∧
      c.conn = some (Message.frame ⟨0x43, ascii "SELECT 1" ++ [0]⟩ ++
        Message.frame ⟨0x5A, [0x49]⟩) ∧
      ¬InStep shortRow.ending [] c := by
  refine ⟨_, _, rfl, rfl, ?_⟩
  exact not_inStep (x := Message.frame ⟨0x43, ascii "SELECT 1" ++ [0]⟩) rfl

end Postgres

end Look
