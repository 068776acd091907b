/-
The receiving side of a WebSocket connection: `ws_try_decode_frame` and
`on_ws_data`.

Messages arrive as frames, and frames arrive in pieces.  The frames of a client
that keeps to the protocol are delivered whatever the pieces are, and every ping
is answered.

A frame that the decoder refuses for its length is reported like a frame that is
not complete.  The connection then waits for the rest of a frame that it will
never take, and keeps every byte that arrives.  Without such a frame a connection
that waits holds less than one frame of the largest size.
-/
import Mathlib.Data.List.GetD
import Look.Lib.BigEndian
import Look.Lib.Stream

namespace Look

namespace Ws

/-- `WS_MAX_FRAME`, and `WS_MAX_MESSAGE` for a message of several frames. -/
def maxFrame : Nat := 16 * 1024 * 1024

/-! ## Frames -/

/-- `WsFrame`. -/
structure Frame where
  fin : Bool := true
  opcode : UInt8 := 0
  payload : List UInt8 := []
  consumed : Nat := 0
  complete : Bool := false
  protocolError : Bool := false
deriving DecidableEq

/-- The payload under its mask: `payload[i] ^ mask[i % 4]`. -/
def xorMask (mask payload : List UInt8) : List UInt8 :=
  payload.mapIdx fun i b => b ^^^ mask.getD (i % 4) 0

/-- The length of the payload and the position behind it, from the second byte on;
nothing when its bytes are not all there, or when it is over the limit. -/
def payloadLength (buf : List UInt8) : Option (Nat × Nat) :=
  let plen := (buf.getD 1 0 &&& 0x7F).toNat
  if plen = 126 then
    if buf.length < 4 then none else some (ofBytes ((buf.drop 2).take 2), 4)
  else if plen = 127 then
    if buf.length < 10 then none
    else
      let plen := ofBytes ((buf.drop 2).take 8)
      if maxFrame < plen then none else some (plen, 10)
  else some (plen, 2)

/-- `ws_try_decode_frame`. -/
def tryDecodeFrame (buf : List UInt8) : Frame :=
  if buf.length < 2 then {}
  else
    let b0 := buf.getD 0 0
    let b1 := buf.getD 1 0
    let f : Frame := { fin := b0 &&& 0x80 != 0, opcode := b0 &&& 0x0F }
    if b0 &&& 0x70 != 0 then { f with protocolError := true }
    else if 0x0A < f.opcode || (0x02 < f.opcode && f.opcode < 0x08) then
      { f with protocolError := true }
    else
      match payloadLength buf with
      | none => f
      | some (plen, pos) =>
        if f.opcode &&& 0x08 != 0 && (125 < plen || !f.fin) then { f with protocolError := true }
        else if b1 &&& 0x80 == 0 then { f with protocolError := true }
        else if buf.length < pos + 4 + plen then f
        else
          { f with
            payload := xorMask ((buf.drop pos).take 4) ((buf.drop (pos + 4)).take plen)
            consumed := pos + 4 + plen
            complete := true }

/-- `ws_encode_close_frame`. -/
def encodeCloseFrame : List UInt8 := [0x88, 0x00]

/-- `ws_encode_pong_frame`. -/
def encodePongFrame (payload : List UInt8) : List UInt8 :=
  let n := if 125 < payload.length then 125 else payload.length
  [0x8A, UInt8.ofNat (n &&& 0x7F)] ++ payload.take n

/-! ## Connections -/

/-- A task for the pool. -/
inductive Callback where
  | message (payload : List UInt8)
  | close
deriving DecidableEq

/-- `WsConnection`: which callbacks are set, the message that is being put
together, and what was handed to the pool and to the socket. -/
structure Conn where
  onMessage : Bool
  onClose : Bool
  closed : Bool
  fragActive : Bool
  fragOpcode : UInt8
  fragBuf : List UInt8
  submitted : List Callback
  sent : List (List UInt8)
deriving DecidableEq

namespace Conn

/-- A connection behind the handshake. -/
def opened (onMessage onClose : Bool) : Conn := ⟨onMessage, onClose, false, false, 0, [], [], []⟩

/-- `ws_deliver`. -/
def deliver (c : Conn) (msg : List UInt8) : Conn :=
  if c.onMessage then { c with submitted := c.submitted ++ [.message msg] } else c

def sendRaw (c : Conn) (frame : List UInt8) : Conn := { c with sent := c.sent ++ [frame] }

/-- `ws_proto_close`. -/
def protoClose (c : Conn) : Conn := { c.sendRaw encodeCloseFrame with closed := true }

/-- The end of a data frame, once its payload is in `frag_buf`. -/
def endFragment (c : Conn) (fin : Bool) : Conn :=
  if maxFrame < c.fragBuf.length then c.protoClose
  else if fin then { c with fragBuf := [], fragActive := false }.deliver c.fragBuf
  else c

/-- What the loop of `on_ws_data` does with a frame it took off the buffer, or
with a protocol error. -/
def handleFrame (c : Conn) (f : Frame) : Conn :=
  if f.protocolError then c.protoClose
  else if f.opcode = 0x00 then
    if !c.fragActive then c.protoClose
    else { c with fragBuf := c.fragBuf ++ f.payload }.endFragment f.fin
  else if f.opcode = 0x01 || f.opcode = 0x02 then
    if c.fragActive then c.protoClose
    else if f.fin then c.deliver f.payload
    else
      { c with fragActive := true, fragOpcode := f.opcode, fragBuf := f.payload }.endFragment f.fin
  else if f.opcode = 0x09 then c.sendRaw (encodePongFrame f.payload)
  else if f.opcode = 0x08 then
    let c := c.protoClose
    if c.onClose then { c with submitted := c.submitted ++ [.close] } else c
  else c

end Conn

/-- What the loop takes off the buffer.  A protocol error ends the connection, so
that it does not matter what stays in the buffer. -/
def frontFrame (buf : List UInt8) : Front Frame :=
  let f := tryDecodeFrame buf
  if f.protocolError then .item f 2
  else if f.complete then .item f f.consumed
  else .wait

section Decode

variable {buf : List UInt8} (more : List UInt8)

theorem slice_append {pos n : Nat} (h : pos + n ≤ buf.length) :
    ((buf ++ more).drop pos).take n = (buf.drop pos).take n := by
  rw [List.drop_append_of_le_length (by omega), List.take_append_of_le_length]
  rw [List.length_drop]
  omega

theorem payloadLength_append {plen pos : Nat} (hlen : 2 ≤ buf.length)
    (h : payloadLength buf = some (plen, pos)) :
    payloadLength (buf ++ more) = some (plen, pos) := by
  rw [payloadLength] at h ⊢
  rw [List.getD_append _ _ _ _ (by omega), List.length_append]
  split at h
  · rename_i hform
    rw [if_pos hform]
    split at h
    · cases h
    · rw [if_neg (by omega), slice_append more (by omega)]
      exact h
  · rename_i hform
    rw [if_neg hform]
    split at h
    · rename_i hform
      rw [if_pos hform]
      split at h
      · cases h
      · rw [if_neg (by omega), slice_append more (by omega)]
        exact h
    · rename_i hform
      rw [if_neg hform]
      exact h

/-- What the decoder has decided stays decided. -/
theorem tryDecodeFrame_append
    (h : (tryDecodeFrame buf).protocolError = true ∨ (tryDecodeFrame buf).complete = true) :
    tryDecodeFrame (buf ++ more) = tryDecodeFrame buf := by
  have hlen : 2 ≤ buf.length := by
    by_contra hlt
    rw [tryDecodeFrame, if_pos (by omega)] at h
    exact absurd h (by decide)
  have hget0 : (buf ++ more).getD 0 0 = buf.getD 0 0 := List.getD_append _ _ _ _ (by omega)
  have hget1 : (buf ++ more).getD 1 0 = buf.getD 1 0 := List.getD_append _ _ _ _ (by omega)
  have hlen' : ¬ (buf ++ more).length < 2 := by
    rw [List.length_append]
    omega
  have hlen0 : ¬ buf.length < 2 := by omega
  rw [tryDecodeFrame, if_neg hlen0] at h
  rw [tryDecodeFrame, tryDecodeFrame, if_neg hlen', if_neg hlen0, hget0, hget1,
    List.length_append]
  dsimp only at h ⊢
  split
  · rfl
  · split
    · rfl
    · rename_i hrsv hop
      rw [if_neg hrsv, if_neg hop] at h
      cases hplen : payloadLength buf with
      | none =>
        rw [hplen] at h
        rcases h with h | h <;> cases h
      | some r =>
        obtain ⟨plen, pos⟩ := r
        rw [hplen] at h
        rw [payloadLength_append more hlen hplen]
        dsimp only at h ⊢
        split
        · rfl
        · split
          · rfl
          · rename_i hctl hmask
            rw [if_neg hctl, if_neg hmask] at h
            by_cases hshort : buf.length < pos + 4 + plen
            · rw [if_pos hshort] at h
              rcases h with h | h <;> cases h
            · rw [if_neg (by omega), if_neg hshort, slice_append more (by omega),
                slice_append more (by omega)]

theorem payloadLength_pos {plen pos : Nat} (h : payloadLength buf = some (plen, pos)) :
    2 ≤ pos ∧ pos ≤ 10 ∧ plen ≤ maxFrame := by
  rw [payloadLength] at h
  split at h
  · split at h
    · cases h
    · cases h
      have hlt := ofBytes_lt ((buf.drop 2).take 2)
      have hle : ((buf.drop 2).take 2).length ≤ 2 := by
        rw [List.length_take]
        omega
      have hpow := Nat.pow_le_pow_right (show 0 < 256 by decide) hle
      exact ⟨by decide, by decide, Nat.le_trans (Nat.le_of_lt (Nat.lt_of_lt_of_le hlt hpow))
        (by decide)⟩
  · split at h
    · split at h
      · cases h
      · dsimp only at h
        split at h
        · cases h
        · rename_i hmax
          cases h
          exact ⟨by decide, by decide, by omega⟩
    · cases h
      have hbyte := (buf.getD 1 0 &&& 0x7F).toNat_lt
      exact ⟨by decide, by decide, Nat.le_trans (Nat.le_of_lt hbyte) (by decide)⟩

/-- What the decoder can say of a buffer. -/
inductive Decoded (buf : List UInt8) : Frame → Prop
  | short (h : buf.length < 2) : Decoded buf {}
  | refused {f : Frame} (hlen : 2 ≤ buf.length) (hf : f.protocolError = true) : Decoded buf f
  | noLength {fin : Bool} {opcode : UInt8} (h : payloadLength buf = none) :
      Decoded buf { fin := fin, opcode := opcode }
  | begun {fin : Bool} {opcode : UInt8} {plen pos : Nat}
      (h : payloadLength buf = some (plen, pos)) (hlen : buf.length < pos + 4 + plen) :
      Decoded buf { fin := fin, opcode := opcode }
  | whole {fin : Bool} {opcode : UInt8} {plen pos : Nat} {payload : List UInt8}
      (h : payloadLength buf = some (plen, pos)) (hlen : pos + 4 + plen ≤ buf.length) :
      Decoded buf ⟨fin, opcode, payload, pos + 4 + plen, true, false⟩

theorem tryDecodeFrame_decoded (buf : List UInt8) : Decoded buf (tryDecodeFrame buf) := by
  rw [tryDecodeFrame]
  split
  · rename_i hlen
    exact .short hlen
  · rename_i hlen
    dsimp only
    split
    · exact .refused (by omega) rfl
    · split
      · exact .refused (by omega) rfl
      · cases hplen : payloadLength buf with
        | none => exact .noLength hplen
        | some r =>
          obtain ⟨plen, pos⟩ := r
          dsimp only
          split
          · exact .refused (by omega) rfl
          · split
            · exact .refused (by omega) rfl
            · split
              · rename_i hshort
                exact .begun hplen hshort
              · rename_i hshort
                exact .whole hplen (by omega)

/-! ## The loop -/

theorem frontFrame_used {f : Frame} {n : Nat} (h : frontFrame buf = .item f n) :
    0 < n ∧ n ≤ buf.length := by
  rw [frontFrame] at h
  generalize hf : tryDecodeFrame buf = f' at h
  have hdec := hf ▸ tryDecodeFrame_decoded buf
  cases hdec with
  | short _ => cases h
  | refused hlen herr =>
    simp only [herr, if_true] at h
    cases h
    exact ⟨by decide, hlen⟩
  | noLength _ => cases h
  | begun _ _ => cases h
  | whole hplen hlen =>
    cases h
    refine ⟨?_, hlen⟩
    show 0 < _ + 4 + _
    omega

theorem frontFrame_stable {f : Frame} {n : Nat} (h : frontFrame buf = .item f n) :
    frontFrame (buf ++ more) = .item f n := by
  have hdecided : (tryDecodeFrame buf).protocolError = true ∨
      (tryDecodeFrame buf).complete = true := by
    by_contra hnot
    rw [not_or] at hnot
    rw [frontFrame, if_neg hnot.1, if_neg hnot.2] at h
    cases h
  rw [frontFrame, tryDecodeFrame_append more hdecided]
  exact h

def decoder : Decoder UInt8 Frame where
  front := frontFrame
  used_pos := fun h => (frontFrame_used h).1
  used_le := fun h => (frontFrame_used h).2
  stable := fun more h => frontFrame_stable more h

/-- The loop of `on_ws_data`. -/
def receiver : Receiver UInt8 Frame Conn := ⟨decoder, Conn.handleFrame, Conn.closed⟩

/-- `on_ws_data`, on a connection and its buffer in `ws_bufs`.  No bytes means that
the client is gone; `close_ws` erases the buffer, and what arrives after it is
ignored. -/
def onWsData (x : Conn × List UInt8) (data : List UInt8) : Conn × List UInt8 :=
  if data.isEmpty then
    if !x.1.closed && x.1.onClose then
      ({ x.1 with closed := true, submitted := x.1.submitted ++ [.close] }, [])
    else ({ x.1 with closed := true }, [])
  else if x.1.closed then x
  else
    let y := receiver.feed x data
    if y.1.closed then (y.1, []) else y

/-- The data arrives piece by piece. -/
def receive (x : Conn × List UInt8) (pieces : List (List UInt8)) : Conn × List UInt8 :=
  pieces.foldl onWsData x

/-! ## What waits in the buffer -/

/-- The buffer begins with a header that announces, in its 64-bit form, more than
the limit. -/
def Oversized (buf : List UInt8) : Prop :=
  10 ≤ buf.length ∧ (buf.getD 1 0 &&& 0x7F).toNat = 127 ∧
    maxFrame < ofBytes ((buf.drop 2).take 8)

/-- A connection that waits holds less than a frame of the largest size, or a frame
that it will never take. -/
theorem wait_bounded (h : frontFrame buf = .wait) :
    buf.length < maxFrame + 14 ∨ Oversized buf := by
  have hdec := tryDecodeFrame_decoded buf
  rw [frontFrame] at h
  generalize tryDecodeFrame buf = f at h hdec
  cases hdec with
  | short hlen =>
    left
    have : 0 < maxFrame := by decide
    omega
  | refused _ herr =>
    simp only [herr, if_true] at h
    cases h
  | noLength hplen =>
    rw [payloadLength] at hplen
    have : 0 < maxFrame := by decide
    split at hplen
    · split at hplen
      · left
        omega
      · cases hplen
    · split at hplen
      · rename_i hform
        split at hplen
        · left
          omega
        · dsimp only at hplen
          split at hplen
          · rename_i hlen hmax
            exact Or.inr ⟨by omega, hform, hmax⟩
          · cases hplen
      · cases hplen
  | begun hplen hlen =>
    left
    obtain ⟨-, hpos, hmax⟩ := payloadLength_pos hplen
    omega
  | whole hplen hlen => cases h

theorem Oversized.append (h : Oversized buf) : Oversized (buf ++ more) := by
  obtain ⟨hlen, hform, hmax⟩ := h
  refine ⟨by rw [List.length_append]; omega, ?_, ?_⟩
  · rw [List.getD_append _ _ _ _ (by omega)]
    exact hform
  · rw [slice_append more (by omega)]
    exact hmax

theorem Oversized.payloadLength_none (h : Oversized buf) : payloadLength buf = none := by
  obtain ⟨hlen, hform, hmax⟩ := h
  rw [payloadLength, hform, if_neg (by decide), if_pos rfl, if_neg (by omega)]
  exact if_pos hmax

/-- A buffer that begins with such a header waits whatever arrives. -/
theorem Oversized.waits (h : Oversized buf) (hwait : frontFrame buf = .wait) :
    frontFrame (buf ++ more) = .wait := by
  have hlen := h.1
  have hget0 : (buf ++ more).getD 0 0 = buf.getD 0 0 := List.getD_append _ _ _ _ (by omega)
  have hlen' : ¬ (buf ++ more).length < 2 := by
    rw [List.length_append]
    omega
  have hlen0 : ¬ buf.length < 2 := by omega
  rw [frontFrame, tryDecodeFrame, if_neg hlen0, h.payloadLength_none] at hwait
  rw [frontFrame, tryDecodeFrame, if_neg hlen', (h.append more).payloadLength_none, hget0]
  exact hwait

end Decode

/-! ## Pieces -/

section Pieces

variable {x : Conn × List UInt8} {pieces : List (List UInt8)}

theorem receive_closed (h : x.1.closed = true) (hne : ∀ p ∈ pieces, p ≠ []) :
    receive x pieces = x := by
  induction pieces with
  | nil => rfl
  | cons piece pieces ih =>
    have hpiece : piece.isEmpty = false := by simpa using hne piece List.mem_cons_self
    have hdata : onWsData x piece = x := by
      rw [onWsData, hpiece, if_neg Bool.false_ne_true, if_pos h]
    rw [receive, List.foldl_cons, hdata]
    exact ih fun p hp => hne p (List.mem_cons_of_mem _ hp)

theorem onWsData_open (h : x.1.closed = false) {piece : List UInt8} (hne : piece ≠ []) :
    (onWsData x piece).1 = (receiver.feed x piece).1 ∧
    ((receiver.feed x piece).1.closed = false → onWsData x piece = receiver.feed x piece) := by
  have hpiece : piece.isEmpty = false := by simpa using hne
  rw [onWsData, hpiece, if_neg Bool.false_ne_true, h, if_neg Bool.false_ne_true]
  dsimp only
  split
  · rename_i hclosed
    refine ⟨rfl, fun hopen => ?_⟩
    rw [hopen] at hclosed
    cases hclosed
  · exact ⟨rfl, fun _ => rfl⟩

/-- The pieces of a stream do to a connection what the whole stream does to the
loop. -/
theorem receive_eq_feed (hidle : receiver.Idle x) (hne : ∀ p ∈ pieces, p ≠ []) :
    (receive x pieces).1 = (receiver.feed x pieces.flatten).1 ∧
    ((receive x pieces).1.closed = false →
      receive x pieces = receiver.feed x pieces.flatten) := by
  have hall : (receive x pieces).1 = (receiver.feedAll x pieces).1 ∧
      ((receive x pieces).1.closed = false → receive x pieces = receiver.feedAll x pieces) := by
    clear hidle
    induction pieces generalizing x with
    | nil => exact ⟨rfl, fun _ => rfl⟩
    | cons piece pieces ih =>
      have hrest : ∀ p ∈ pieces, p ≠ [] := fun p hp => hne p (List.mem_cons_of_mem _ hp)
      cases hclosed : x.1.closed with
      | true =>
        rw [receive_closed hclosed hne]
        have hstop : (receiver.feedAll x (piece :: pieces)).1 = x.1 :=
          Receiver.feedAll_of_stopped hclosed _
        exact ⟨hstop.symm, fun hopen => absurd (hclosed.symm.trans hopen) (by decide)⟩
      | false =>
        obtain ⟨hfst, heq⟩ := onWsData_open hclosed (hne piece List.mem_cons_self)
        have hrecv : receive x (piece :: pieces) = receive (onWsData x piece) pieces := rfl
        have hfeed : receiver.feedAll x (piece :: pieces) =
            receiver.feedAll (receiver.feed x piece) pieces := rfl
        rw [hrecv, hfeed]
        cases hnext : (receiver.feed x piece).1.closed with
        | true =>
          rw [receive_closed (hfst ▸ hnext) hrest, hfst]
          have hstop : (receiver.feedAll (receiver.feed x piece) pieces).1 =
              (receiver.feed x piece).1 := Receiver.feedAll_of_stopped hnext _
          exact ⟨hstop.symm, fun hopen => absurd (hnext.symm.trans hopen) (by decide)⟩
        | false =>
          rw [heq hnext]
          exact ih hrest
  obtain ⟨hflat, hflatEq⟩ := Receiver.feedAll_flatten x hidle pieces
  refine ⟨hall.1.trans hflat, ?_⟩
  intro hopen
  rw [hall.2 hopen]
  exact hflatEq (hall.1 ▸ hopen)

end Pieces

/-! ## What a client sends -/

/-- The form in which a client sends the length of a frame. -/
inductive LengthForm where
  | short
  | medium
  | long

/-- A frame of a client, with its mask. -/
structure ClientFrame where
  fin : Bool
  opcode : UInt8
  mask : List UInt8
  form : LengthForm
  payload : List UInt8
  mask_length : mask.length = 4
  opcode_data_or_control : opcode = 0 ∨ opcode = 1 ∨ opcode = 2 ∨ opcode = 9 ∨ opcode = 10
  fits : match form with
    | .short => payload.length < 126
    | .medium => payload.length < 65536
    | .long => payload.length ≤ maxFrame
  control : opcode = 9 ∨ opcode = 10 → fin = true ∧ payload.length ≤ 125

namespace ClientFrame

/-- The second byte and the bytes of the length behind it. -/
def lengthBytes (f : ClientFrame) : List UInt8 :=
  match f.form with
  | .short => [0x80 ||| UInt8.ofNat f.payload.length]
  | .medium => (0x80 ||| 126) :: toBytes 2 f.payload.length
  | .long => (0x80 ||| 127) :: toBytes 8 f.payload.length

def bytes (f : ClientFrame) : List UInt8 :=
  ((if f.fin then 0x80 else 0x00) ||| f.opcode) ::
    (f.lengthBytes ++ f.mask ++ xorMask f.mask f.payload)

theorem length_xorMask (mask payload : List UInt8) :
    (xorMask mask payload).length = payload.length := List.length_mapIdx

/-- Masking twice gives the payload back. -/
theorem xorMask_xorMask (mask payload : List UInt8) :
    xorMask mask (xorMask mask payload) = payload := by
  apply List.ext_getElem
  · rw [length_xorMask, length_xorMask]
  · intro i h1 h2
    simp only [xorMask, List.getElem_mapIdx]
    rw [UInt8.xor_assoc, UInt8.xor_self, UInt8.xor_zero]

theorem short_byte : ∀ n : Fin 126,
    ((0x80 ||| UInt8.ofNat n.val) &&& 0x7F).toNat = n.val ∧
    ((0x80 ||| UInt8.ofNat n.val) &&& 0x80 == 0) = false := by decide

theorem first_byte (fin : Bool) {opcode : UInt8}
    (h : opcode = 0 ∨ opcode = 1 ∨ opcode = 2 ∨ opcode = 9 ∨ opcode = 10) :
    let b0 := (if fin then 0x80 else 0x00) ||| opcode
    (b0 &&& 0x80 != 0) = fin ∧ b0 &&& 0x0F = opcode ∧ (b0 &&& 0x70 != 0) = false ∧
    (0x0A < opcode || (0x02 < opcode && opcode < 0x08)) = false := by
  rcases h with rfl | rfl | rfl | rfl | rfl <;> cases fin <;> decide

theorem payloadLength_bytes (f : ClientFrame) (rest : List UInt8) :
    payloadLength (f.bytes ++ rest) = some (f.payload.length, 1 + f.lengthBytes.length) ∧
    ((f.bytes ++ rest).getD 1 0 &&& 0x80 == 0) = false := by
  have hfits := f.fits
  have hmask := f.mask_length
  cases hform : f.form with
  | short =>
    rw [hform] at hfits
    obtain ⟨hlen, hbit⟩ := short_byte ⟨f.payload.length, hfits⟩
    have hget : (f.bytes ++ rest).getD 1 0 = 0x80 ||| UInt8.ofNat f.payload.length := by
      simp [bytes, lengthBytes, hform]
    have hbytes : f.lengthBytes.length = 1 := by simp [lengthBytes, hform]
    dsimp only at hlen hbit
    rw [payloadLength, hget, hlen, if_neg (by omega), if_neg (by omega), hbytes]
    exact ⟨rfl, hbit⟩
  | medium =>
    rw [hform] at hfits
    have hget : (f.bytes ++ rest).getD 1 0 = 0x80 ||| 126 := by simp [bytes, lengthBytes, hform]
    have hslice : ((f.bytes ++ rest).drop 2).take 2 = toBytes 2 f.payload.length := by
      simp only [bytes, lengthBytes, hform, List.cons_append, List.append_assoc,
        List.drop_succ_cons, List.drop_zero]
      exact List.take_left' (length_toBytes 2 _)
    have hbytes : f.lengthBytes.length = 3 := by simp [lengthBytes, hform, length_toBytes]
    have hlen : ¬ (f.bytes ++ rest).length < 4 := by
      simp only [bytes, List.cons_append, List.length_cons, List.length_append]
      omega
    rw [payloadLength, hget, if_pos (by decide), if_neg hlen, hslice,
      ofBytes_toBytes 2 _ hfits, hbytes]
    exact ⟨rfl, by decide⟩
  | long =>
    rw [hform] at hfits
    have hget : (f.bytes ++ rest).getD 1 0 = 0x80 ||| 127 := by simp [bytes, lengthBytes, hform]
    have hslice : ((f.bytes ++ rest).drop 2).take 8 = toBytes 8 f.payload.length := by
      simp only [bytes, lengthBytes, hform, List.cons_append, List.append_assoc,
        List.drop_succ_cons, List.drop_zero]
      exact List.take_left' (length_toBytes 8 _)
    have hbytes : f.lengthBytes.length = 9 := by simp [lengthBytes, hform, length_toBytes]
    have hlen : ¬ (f.bytes ++ rest).length < 10 := by
      simp only [bytes, List.cons_append, List.length_cons, List.length_append]
      omega
    rw [payloadLength, hget, if_neg (by decide), if_pos (by decide), if_neg hlen, hslice,
      ofBytes_toBytes 8 _ (Nat.lt_of_le_of_lt hfits (by decide)), hbytes]
    exact ⟨if_neg (by omega), by decide⟩

/-- The decoder takes the frame of a client off the front of the stream. -/
theorem tryDecodeFrame_bytes (f : ClientFrame) (rest : List UInt8) :
    tryDecodeFrame (f.bytes ++ rest) =
      ⟨f.fin, f.opcode, f.payload, f.bytes.length, true, false⟩ := by
  obtain ⟨hfin, hop, hrsv, hknown⟩ := first_byte f.fin f.opcode_data_or_control
  obtain ⟨hplen, hbit⟩ := f.payloadLength_bytes rest
  have hmask := f.mask_length
  have hget0 : (f.bytes ++ rest).getD 0 0 = (if f.fin then 0x80 else 0x00) ||| f.opcode := rfl
  have htotal : f.bytes.length = 1 + f.lengthBytes.length + 4 + f.payload.length := by
    simp only [bytes, List.length_cons, List.length_append, length_xorMask, hmask]
    omega
  have hlen : (f.bytes ++ rest).length = f.bytes.length + rest.length := List.length_append
  have hcontrol : (f.opcode &&& 0x08 != 0 && (125 < f.payload.length || !f.fin)) = false := by
    rcases f.opcode_data_or_control with h | h | h | h | h
    · rw [h]
      rfl
    · rw [h]
      rfl
    · rw [h]
      rfl
    · obtain ⟨hfin, hlen⟩ := f.control (Or.inl h)
      simp [hfin]
      omega
    · obtain ⟨hfin, hlen⟩ := f.control (Or.inr h)
      simp [hfin]
      omega
  have hkey : ((f.bytes ++ rest).drop (1 + f.lengthBytes.length)).take 4 = f.mask := by
    rw [bytes, Nat.add_comm, List.cons_append, List.drop_succ_cons, List.append_assoc,
      List.append_assoc, List.drop_left]
    exact List.take_left' hmask
  have hpayload : ((f.bytes ++ rest).drop (1 + f.lengthBytes.length + 4)).take
      f.payload.length = xorMask f.mask f.payload := by
    rw [bytes, show 1 + f.lengthBytes.length + 4 = f.lengthBytes.length + 4 + 1 by omega,
      List.cons_append, List.drop_succ_cons, ← hmask, ← List.length_append, List.append_assoc,
      List.drop_left]
    exact List.take_left' (length_xorMask _ _)
  rw [tryDecodeFrame, if_neg (by omega), hget0]
  dsimp only
  rw [hfin, hop, hrsv, hknown, if_neg Bool.false_ne_true, if_neg Bool.false_ne_true, hplen]
  dsimp only
  rw [hcontrol, hbit, if_neg Bool.false_ne_true, if_neg Bool.false_ne_true, if_neg (by omega),
    hkey, hpayload, xorMask_xorMask, ← htotal]

end ClientFrame

/-- The frames of a client that sends the messages `ms`, each cut into fragments,
with pings and pongs in between; `part` is what was sent of the message that is not
finished. -/
inductive Speaks : Option (List UInt8) → List ClientFrame → List (List UInt8) → Prop
  | done : Speaks none [] []
  | control {part f fs ms} (hop : f.opcode = 9 ∨ f.opcode = 10) (h : Speaks part fs ms) :
      Speaks part (f :: fs) ms
  | single {f fs ms} (hop : f.opcode = 1 ∨ f.opcode = 2) (hfin : f.fin = true)
      (h : Speaks none fs ms) : Speaks none (f :: fs) (f.payload :: ms)
  | first {f fs ms} (hop : f.opcode = 1 ∨ f.opcode = 2) (hfin : f.fin = false)
      (hmax : f.payload.length ≤ maxFrame) (h : Speaks (some f.payload) fs ms) :
      Speaks none (f :: fs) ms
  | next {part f fs ms} (hop : f.opcode = 0) (hfin : f.fin = false)
      (hmax : part.length + f.payload.length ≤ maxFrame)
      (h : Speaks (some (part ++ f.payload)) fs ms) : Speaks (some part) (f :: fs) ms
  | last {part f fs ms} (hop : f.opcode = 0) (hfin : f.fin = true)
      (hmax : part.length + f.payload.length ≤ maxFrame) (h : Speaks none fs ms) :
      Speaks (some part) (f :: fs) ((part ++ f.payload) :: ms)

/-- The pongs that the pings among the frames ask for. -/
def pongs (fs : List ClientFrame) : List (List UInt8) :=
  (fs.filter fun f => f.opcode == 9).map fun f => [0x8A, UInt8.ofNat f.payload.length] ++ f.payload

/-- The connection is open, calls back for messages, and holds this part of a
message. -/
def Conn.Holds (c : Conn) (part : Option (List UInt8)) : Prop :=
  c.closed = false ∧ c.onMessage = true ∧
    match part with
    | none => c.fragActive = false
    | some b => c.fragActive = true ∧ c.fragBuf = b

section Speaks

variable {c : Conn} {f : ClientFrame} {part : List UInt8}

/-- The frame as the decoder hands it over. -/
def ClientFrame.decoded (f : ClientFrame) : Frame :=
  ⟨f.fin, f.opcode, f.payload, f.bytes.length, true, false⟩

theorem front_bytes (f : ClientFrame) (rest : List UInt8) :
    receiver.decoder.front (f.bytes ++ rest) = .item f.decoded f.bytes.length := by
  show frontFrame (f.bytes ++ rest) = _
  rw [frontFrame, f.tryDecodeFrame_bytes]
  rfl

theorem pump_bytes (hc : c.closed = false) (f : ClientFrame) (rest : List UInt8) :
    receiver.pump c (f.bytes ++ rest) = receiver.pump (c.handleFrame f.decoded) rest := by
  rw [Receiver.pump_item (r := receiver) hc (front_bytes f rest), List.drop_left]
  rfl

theorem encodePongFrame_of_le {payload : List UInt8} (h : payload.length ≤ 125) :
    encodePongFrame payload = [0x8A, UInt8.ofNat payload.length] ++ payload := by
  have hmask : payload.length &&& 0x7F = payload.length := by
    have := Nat.and_two_pow_sub_one_eq_mod payload.length 7
    rw [show (2 : Nat) ^ 7 - 1 = 0x7F from rfl] at this
    omega
  rw [encodePongFrame, if_neg (by omega), hmask, List.take_length]

/-- A frame between the fragments leaves the message alone. -/
theorem handleFrame_control (hop : f.opcode = 9 ∨ f.opcode = 10) :
    c.handleFrame f.decoded = { c with sent := c.sent ++ pongs [f] } := by
  rcases hop with hop | hop
  · have hlen := (f.control (Or.inl hop)).2
    simp [Conn.handleFrame, ClientFrame.decoded, hop, Conn.sendRaw, pongs,
      encodePongFrame_of_le hlen]
  · simp [Conn.handleFrame, ClientFrame.decoded, hop, pongs]

theorem handleFrame_single (hc : c.Holds none) (hop : f.opcode = 1 ∨ f.opcode = 2)
    (hfin : f.fin = true) :
    c.handleFrame f.decoded = { c with submitted := c.submitted ++ [.message f.payload] } := by
  obtain ⟨-, hmsg, hfrag⟩ := hc
  rcases hop with hop | hop <;>
    simp [Conn.handleFrame, ClientFrame.decoded, hop, hfin, hfrag, Conn.deliver, hmsg]

theorem handleFrame_first (hc : c.Holds none) (hop : f.opcode = 1 ∨ f.opcode = 2)
    (hfin : f.fin = false) (hmax : f.payload.length ≤ maxFrame) :
    c.handleFrame f.decoded =
      { c with fragActive := true, fragOpcode := f.opcode, fragBuf := f.payload } := by
  obtain ⟨-, hmsg, hfrag⟩ := hc
  have hnot : ¬ maxFrame < f.payload.length := by omega
  rcases hop with hop | hop <;>
    simp [Conn.handleFrame, ClientFrame.decoded, hop, hfin, hfrag, Conn.endFragment, hnot]

theorem handleFrame_next (hc : c.Holds (some part)) (hop : f.opcode = 0) (hfin : f.fin = false)
    (hmax : part.length + f.payload.length ≤ maxFrame) :
    c.handleFrame f.decoded = { c with fragBuf := part ++ f.payload } := by
  obtain ⟨-, hmsg, hfrag, hbuf⟩ := hc
  have hnot : ¬ maxFrame < part.length + f.payload.length := by omega
  simp [Conn.handleFrame, ClientFrame.decoded, hop, hfin, hfrag, hbuf, Conn.endFragment, hnot]

theorem handleFrame_last (hc : c.Holds (some part)) (hop : f.opcode = 0) (hfin : f.fin = true)
    (hmax : part.length + f.payload.length ≤ maxFrame) :
    c.handleFrame f.decoded =
      { c with
        fragBuf := []
        fragActive := false
        submitted := c.submitted ++ [.message (part ++ f.payload)] } := by
  obtain ⟨-, hmsg, hfrag, hbuf⟩ := hc
  have hnot : ¬ maxFrame < part.length + f.payload.length := by omega
  simp [Conn.handleFrame, ClientFrame.decoded, hop, hfin, hfrag, hbuf, Conn.endFragment, hnot,
    Conn.deliver, hmsg]

theorem pongs_cons_of_ne {fs : List ClientFrame} (h : f.opcode ≠ 9) :
    pongs (f :: fs) = pongs fs := by
  simp [pongs, h]

/-- The frames of a client, one after the other: every message is handed over
and every ping is answered. -/
theorem pump_speaks {p : Option (List UInt8)} {fs : List ClientFrame} {ms : List (List UInt8)}
    (h : Speaks p fs ms) {c : Conn} (hc : c.Holds p) :
    ∃ c', receiver.pump c (fs.flatMap ClientFrame.bytes) = (c', []) ∧ c'.Holds none ∧
      c'.submitted = c.submitted ++ ms.map .message ∧ c'.sent = c.sent ++ pongs fs := by
  induction h generalizing c with
  | done =>
    exact ⟨c, rfl, hc, by simp, by simp [pongs]⟩
  | @control part f fs ms hop _ ih =>
    have hsent : pongs (f :: fs) = pongs [f] ++ pongs fs := by
      simp only [pongs, ← List.map_append, ← List.filter_append, List.singleton_append]
    obtain ⟨c', hpump, hholds, hsub, hsnt⟩ :=
      ih (c := { c with sent := c.sent ++ pongs [f] }) hc
    refine ⟨c', ?_, hholds, hsub, ?_⟩
    · rw [List.flatMap_cons, pump_bytes hc.1, handleFrame_control hop, hpump]
    · rw [hsnt, hsent, List.append_assoc]
  | @single f fs ms hop hfin _ ih =>
    obtain ⟨c', hpump, hholds, hsub, hsnt⟩ :=
      ih (c := { c with submitted := c.submitted ++ [.message f.payload] }) hc
    refine ⟨c', ?_, hholds, ?_, ?_⟩
    · rw [List.flatMap_cons, pump_bytes hc.1, handleFrame_single hc hop hfin, hpump]
    · rw [hsub, List.append_assoc]
      rfl
    · rw [hsnt, pongs_cons_of_ne (by rcases hop with hop | hop <;> rw [hop] <;> decide)]
  | @first f fs ms hop hfin hmax _ ih =>
    obtain ⟨c', hpump, hholds, hsub, hsnt⟩ := ih
      (c := { c with fragActive := true, fragOpcode := f.opcode, fragBuf := f.payload })
      ⟨hc.1, hc.2.1, rfl, rfl⟩
    refine ⟨c', ?_, hholds, hsub, ?_⟩
    · rw [List.flatMap_cons, pump_bytes hc.1, handleFrame_first hc hop hfin hmax, hpump]
    · rw [hsnt, pongs_cons_of_ne (by rcases hop with hop | hop <;> rw [hop] <;> decide)]
  | @next part f fs ms hop hfin hmax _ ih =>
    obtain ⟨c', hpump, hholds, hsub, hsnt⟩ := ih
      (c := { c with fragBuf := part ++ f.payload }) ⟨hc.1, hc.2.1, hc.2.2.1, rfl⟩
    refine ⟨c', ?_, hholds, hsub, ?_⟩
    · rw [List.flatMap_cons, pump_bytes hc.1, handleFrame_next hc hop hfin hmax, hpump]
    · rw [hsnt, pongs_cons_of_ne (by rw [hop]; decide)]
  | @last part f fs ms hop hfin hmax _ ih =>
    obtain ⟨c', hpump, hholds, hsub, hsnt⟩ := ih
      (c := { c with
        fragBuf := []
        fragActive := false
        submitted := c.submitted ++ [.message (part ++ f.payload)] }) ⟨hc.1, hc.2.1, rfl⟩
    refine ⟨c', ?_, hholds, ?_, ?_⟩
    · rw [List.flatMap_cons, pump_bytes hc.1, handleFrame_last hc hop hfin hmax, hpump]
    · rw [hsub, List.append_assoc]
      rfl
    · rw [hsnt, pongs_cons_of_ne (by rw [hop]; decide)]

end Speaks

/-! ## Whole connections -/

/-- A connection whose buffer begins with a header over the limit keeps every byte
that arrives. -/
theorem Oversized.onWsData {x : Conn × List UInt8} (h : Oversized x.2) (hopen : x.1.closed = false)
    (hwait : frontFrame x.2 = .wait) {more : List UInt8} (hne : more ≠ []) :
    onWsData x more = (x.1, x.2 ++ more) := by
  have hfeed : receiver.feed x more = (x.1, x.2 ++ more) :=
    Receiver.pump_of_idle (Or.inr (h.waits more hwait))
  have heq := (onWsData_open hopen hne).2
  rw [hfeed] at heq
  exact heq hopen

theorem opened_idle (onMessage onClose : Bool) :
    receiver.Idle (Conn.opened onMessage onClose, []) := Or.inr rfl

/-- The frames of a client that keeps to the protocol are delivered in order, with
every ping answered, whatever the pieces are.  For any bytes at all, a connection
that did not get a header over the limit is closed or holds less than a frame of
the largest size, and one that did keeps every byte that arrives from then on. -/
theorem receive_spec (onMessage onClose : Bool) {pieces : List (List UInt8)}
    (hne : ∀ p ∈ pieces, p ≠ []) {x : Conn × List UInt8}
    (hx : x = receive (Conn.opened onMessage onClose, []) pieces) :
    (∀ fs ms, onMessage = true → Speaks none fs ms →
      pieces.flatten = fs.flatMap ClientFrame.bytes →
      x.1.closed = false ∧ x.2 = [] ∧ x.1.submitted = ms.map .message ∧ x.1.sent = pongs fs) ∧
    (¬ Oversized x.2 → x.1.closed = true ∨ x.2.length < maxFrame + 14) ∧
    (x.1.closed = false → Oversized x.2 →
      ∀ more, more ≠ [] → onWsData x more = (x.1, x.2 ++ more)) := by
  obtain ⟨hfst, heq⟩ := receive_eq_feed (opened_idle onMessage onClose) hne
  rw [← hx] at hfst heq
  have hwait : x.1.closed = false → frontFrame x.2 = .wait := by
    intro hopen
    rw [heq hopen]
    rcases Receiver.pump_idle (r := receiver) _ _ with hstop | hwait
    · rw [heq hopen] at hopen
      exact absurd (hstop.symm.trans hopen) (by decide)
    · exact hwait
  refine ⟨?_, ?_, ?_⟩
  · rintro fs ms rfl hspeaks hflat
    obtain ⟨c, hpump, hholds, hsub, hsent⟩ :=
      pump_speaks hspeaks (c := Conn.opened true onClose) ⟨rfl, rfl, rfl⟩
    have hfeed : receiver.feed (Conn.opened true onClose, []) pieces.flatten = (c, []) := by
      rw [Receiver.feed, List.nil_append, hflat]
      exact hpump
    have hopen : x.1.closed = false := by
      rw [hfst, hfeed]
      exact hholds.1
    rw [heq hopen, hfeed]
    exact ⟨hholds.1, rfl, hsub, hsent⟩
  · intro hnot
    cases hclosed : x.1.closed with
    | true => exact Or.inl rfl
    | false =>
      rcases wait_bounded (hwait hclosed) with hlt | hover
      · exact Or.inr hlt
      · exact absurd hover hnot
  · intro hopen hover more hmore
    exact hover.onWsData hopen (hwait hopen) hmore

/-- A ping, then the text `hi` in two fragments. -/
def spoken : List ClientFrame :=
  [⟨true, 9, [1, 2, 3, 4], .short, [7], rfl, by decide, by decide, by decide⟩,
    ⟨false, 1, [5, 6, 7, 8], .medium, [104], rfl, by decide, by decide, by decide⟩,
    ⟨true, 0, [9, 9, 9, 9], .short, [105], rfl, by decide, by decide, by decide⟩]

theorem receive_spec_spoken :
    let x := receive (Conn.opened true true, [])
      [[0x89, 0x81, 1, 2], [3, 4, 6, 0x01, 0xFE, 0, 1, 5, 6, 7, 8, 109, 0x80], [0x81, 9, 9, 9, 9, 96]]
    x.1.submitted = [.message [104, 105]] ∧ x.1.sent = [[0x8A, 1, 7]] ∧
      x.2.length < maxFrame + 14 := by
  have hne : ∀ p ∈ [[0x89, 0x81, 1, 2], [3, 4, 6, 0x01, 0xFE, 0, 1, 5, 6, 7, 8, 109, 0x80],
      [0x81, 9, 9, 9, 9, (96 : UInt8)]], p ≠ [] := by decide
  obtain ⟨hspeaks, hbound, -⟩ := receive_spec true true hne rfl
  obtain ⟨hopen, hbuf, hsub, hsent⟩ := hspeaks spoken [[104, 105]] rfl
    (.control (Or.inl rfl) (.first (Or.inl rfl) rfl (by decide) (.last rfl rfl (by decide) .done)))
    (by decide)
  refine ⟨hsub, hsent, ?_⟩
  rcases hbound (by rw [hbuf]; exact fun h => absurd h.1 (by decide)) with hclosed | hlt
  · rw [hopen] at hclosed
    cases hclosed
  · exact hlt

/-- A header that announces 2^32 bytes, and then 16 MB and 4 bytes more: the
connection is open and holds them all. -/
theorem receive_grows :
    let x := receive (Conn.opened true true, [])
      [[0x82, 0xFF, 0, 0, 0, 1, 0, 0, 0, 0], List.replicate (maxFrame + 4) 0]
    x.1.closed = false ∧ x.2.length = maxFrame + 14 := by
  have hfirst : onWsData (Conn.opened true true, []) [0x82, 0xFF, 0, 0, 0, 1, 0, 0, 0, 0] =
      (Conn.opened true true, [0x82, 0xFF, 0, 0, 0, 1, 0, 0, 0, 0]) := by decide
  have hover : Oversized [0x82, 0xFF, 0, 0, 0, 1, 0, 0, 0, 0] := ⟨by decide, by decide, by decide⟩
  have hsecond := hover.onWsData (x := (Conn.opened true true, [0x82, 0xFF, 0, 0, 0, 1, 0, 0, 0, 0]))
    rfl (by decide) (show List.replicate (maxFrame + 4) (0 : UInt8) ≠ [] by
      simp [List.replicate_succ])
  have hboth : receive (Conn.opened true true, [])
      [[0x82, 0xFF, 0, 0, 0, 1, 0, 0, 0, 0], List.replicate (maxFrame + 4) 0] =
      (Conn.opened true true,
        [0x82, 0xFF, 0, 0, 0, 1, 0, 0, 0, 0] ++ List.replicate (maxFrame + 4) 0) := by
    rw [receive, List.foldl_cons, hfirst, List.foldl_cons, hsecond]
    rfl
  rw [hboth]
  refine ⟨rfl, ?_⟩
  rw [List.length_append, List.length_replicate]
  exact Nat.add_comm 10 (maxFrame + 4)

end Ws

end Look
