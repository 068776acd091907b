/-
The text of a message, from the client to the handler.

The client puts a dot in front of every line that begins with one and ends the message
with a line that is a dot.  RFC 5321 ends lines with CRLF.  The session ends them with
LF and takes one CR off, so that a bare LF inside a line ends the line too: it comes
out as CRLF, and a dot between two of them ends the message.  A line that has not
ended after 64 KB makes the session close, and whether a longer line gets through
depends on how it arrives.  These are the only ways in which a text is not handed on
as it was sent.
-/
import Look.Net.SmtpSeparation

namespace Look

namespace Smtp

open Http (Bytes lf cr crlf)

/-! ## Messages as the client sends them -/

/-- The line with a dot more, if it begins with one. -/
def stuff : Bytes → Bytes
  | 46 :: line => 46 :: 46 :: line
  | line => line

/-- The text with these lines. -/
def text (lines : List Bytes) : Bytes := lines.flatMap (· ++ crlf)

def stuffed (lines : List Bytes) : Bytes := lines.flatMap fun line => stuff line ++ crlf

/-- What the client sends for the text, behind the reply to DATA. -/
def encoded (lines : List Bytes) : Bytes := stuffed lines ++ (46 :: crlf)

theorem unstuff_stuff (line : Bytes) : unstuff (stuff line) = line := by
  unfold stuff
  split
  · rfl
  · rename_i h
    cases line with
    | nil => rfl
    | cons b line =>
      unfold unstuff
      split
      · rename_i heq
        cases heq
        exact absurd rfl (h _)
      · rfl

theorem stuff_ne_dot (line : Bytes) : stuff line ≠ [46] := by
  unfold stuff
  split
  · nofun
  · rename_i h
    rintro rfl
    exact h [] rfl

theorem notMem_stuff {b : UInt8} {line : Bytes} (h : b ∉ line) (hb : b ≠ 46) :
    b ∉ stuff line := by
  unfold stuff
  split
  · simpa [hb] using h
  · exact h

theorem notMem_stuff_cr {line : Bytes} (h : lf ∉ line) : lf ∉ stuff line ++ [cr] := by
  rw [List.mem_append, not_or]
  exact ⟨notMem_stuff h (by decide), by decide⟩

theorem stripCr_append (line : Bytes) : stripCr (line ++ [cr]) = line := by
  rw [stripCr, List.getLast?_concat, if_pos rfl, List.dropLast_concat]

theorem text_append (a b : List Bytes) : text (a ++ b) = text a ++ text b :=
  List.flatMap_append

/-- The first line of what is in the buffer and still to come: it has arrived, or a part
of it is all there is. -/
theorem front_line {buf future w z : Bytes} (hw : lf ∉ w) (h : buf ++ future = w ++ lf :: z) :
    (∃ rest, breakOn [lf] buf = some (w, rest) ∧ rest ++ future = z) ∨
    (lf ∉ buf ∧ buf.length ≤ w.length) := by
  cases hbreak : breakOn [lf] buf with
  | some found =>
    obtain ⟨x, rest⟩ := found
    have hall := breakOn_append future hbreak
    rw [h, breakOn_single hw] at hall
    cases hall
    exact Or.inl ⟨rest, rfl, rfl⟩
  | none =>
    have hnot : lf ∉ buf := notMem_of_breakOn hbreak
    refine Or.inr ⟨hnot, ?_⟩
    by_contra hlt
    refine hnot ?_
    have hbuf := eq_append_drop (b := w ++ [lf]) (z := z)
      (h.trans (by simp)) (by rw [List.length_append]; simp; omega)
    rw [hbuf]
    simp

/-! ## Steps of the client -/

def Event.bytes : Event → Bytes
  | .recv bytes => bytes
  | _ => []

/-- What has been received. -/
def received (events : List Event) : Bytes := events.flatMap Event.bytes

/-- Bytes arrive, lines are taken, replies are written; no worker is done yet. -/
def Event.Client : Event → Prop
  | .recv bytes => bytes ≠ [] ∧ bytes.length ≤ 65536
  | .turn => True
  | .written ok => ok = true
  | .workerDone _ => False

/-- The same without the replies. -/
def Event.Quiet : Event → Prop
  | .recv bytes => bytes ≠ [] ∧ bytes.length ≤ 65536
  | .turn => True
  | _ => False

section Rules

variable {cfg : Config}

/-- What each step keeps about the session and the bytes still to come, a sequence of
steps keeps. -/
theorem steps_keeps {I : Session → Bytes → Prop} {ok : Event → Prop}
    (hstep : ∀ s e s' future, step cfg s e = some s' → ok e → I s (e.bytes ++ future) →
      I s' future) {events : List Event} {s s' : Session} {future : Bytes}
    (h : steps cfg s events = some s') (hok : ∀ e ∈ events, ok e)
    (hs : I s (received events ++ future)) : I s' future := by
  induction events generalizing s with
  | nil =>
    cases h
    exact hs
  | cons e events ih =>
    rw [steps, List.foldlM_cons, Option.bind_eq_bind, Option.bind_eq_some_iff] at h
    obtain ⟨s1, hs1, hrest⟩ := h
    rw [received, List.flatMap_cons, List.append_assoc] at hs
    exact ih hrest (fun e' he' => hok e' (List.mem_cons_of_mem _ he'))
      (hstep s e s1 _ hs1 (hok e List.mem_cons_self) hs)

/-- Bytes arrive at a session that takes lines. -/
theorem onData_open {s : Session} {bytes : Bytes} (hne : bytes ≠ []) (hwaiting : s.waiting = false) :
    onData cfg s bytes = { s with buf := s.buf ++ bytes, pumping := true } := by
  have hempty : bytes.isEmpty = false := by simpa using hne
  rw [onData, hempty, if_neg Bool.false_ne_true]
  dsimp only
  rw [hwaiting, if_neg Bool.false_ne_true]

/-- Bytes arrive at a session that waits: they are kept, and too many close it. -/
theorem onData_waiting (cfg : Config) {s : Session} {bytes : Bytes} (hne : bytes ≠ [])
    (hwaiting : s.waiting = true) :
    onData cfg s bytes = { s with buf := s.buf ++ bytes } ∨
    onData cfg s bytes = { s with buf := s.buf ++ bytes, closed := true } := by
  have hempty : bytes.isEmpty = false := by simpa using hne
  rw [onData, hempty, if_neg Bool.false_ne_true]
  dsimp only
  rw [if_pos hwaiting]
  split
  · exact Or.inr rfl
  · exact Or.inl rfl

/-- A turn of the loop in a message: a line of the text. -/
theorem pumpTurn_text {s : Session} {line rest : Bytes} (hstate : s.state = .dataBody)
    (hline : breakOn [lf] s.buf = some (line, rest)) (hne : stripCr line ≠ [46])
    (hfit : (s.msg.data ++ unstuff (stripCr line) ++ crlf).length ≤ cfg.maxMsg) :
    pumpTurn cfg s = { s with
      buf := rest
      waiting := false
      msg := { s.msg with data := s.msg.data ++ unstuff (stripCr line) ++ crlf }
      log := s.log ++ [.text (stripCr line)] } := by
  rw [pumpTurn, hline]
  dsimp only
  rw [dispatchLine, if_pos hstate, handleDataBody, if_neg hne]
  dsimp only
  rw [if_neg (Nat.not_lt.mpr hfit)]

/-- The line that ends the message. -/
theorem pumpTurn_dot {s : Session} {line rest : Bytes} (hstate : s.state = .dataBody)
    (hline : breakOn [lf] s.buf = some (line, rest)) (hdot : stripCr line = [46])
    (hfit : s.msg.data.length ≤ cfg.maxMsg) :
    pumpTurn cfg s = { s with
      buf := rest
      waiting := true
      working := some s.msg
      log := s.log ++ [.dot (some s.msg.data)]
      pumping := false } := by
  rw [pumpTurn, hline]
  dsimp only
  rw [dispatchLine, if_pos hstate, handleDataBody, if_pos hdot]
  dsimp only
  rw [if_neg (Nat.not_lt.mpr hfit)]

/-- A message that is too large: the reply says so, and the session waits. -/
structure TooLarge (s s' : Session) : Prop where
  state : s'.state = s.state
  closed : s'.closed = s.closed
  working : s'.working = s.working
  waiting : s'.waiting = true
  pumping : s'.pumping = false

theorem pumpTurn_tooLarge {s : Session} {line rest : Bytes} (hstate : s.state = .dataBody)
    (hline : breakOn [lf] s.buf = some (line, rest))
    (hover : stripCr line = [46] ∧ cfg.maxMsg < s.msg.data.length ∨ stripCr line ≠ [46] ∧
      cfg.maxMsg < (s.msg.data ++ unstuff (stripCr line) ++ crlf).length) :
    TooLarge s (pumpTurn cfg s) := by
  rw [pumpTurn, hline]
  dsimp only
  rw [dispatchLine, if_pos hstate, handleDataBody]
  rcases hover with ⟨hdot, hover⟩ | ⟨hne, hover⟩
  · rw [if_pos hdot, if_pos hover]
    exact ⟨rfl, rfl, rfl, rfl, rfl⟩
  · rw [if_neg hne]
    dsimp only
    rw [if_pos hover]
    exact ⟨rfl, rfl, rfl, rfl, rfl⟩

end Rules

/-! ## Reading lines that end with CRLF -/

/-- No line is longer than the session waits for, and neither is the one that begins
behind them. -/
def Short (lines : List Bytes) (tail : Bytes) : Prop :=
  (∀ l ∈ lines, (stuff l).length + 1 ≤ lineMax) ∧
  ∀ w z, tail = w ++ z → lf ∉ w → w.length ≤ lineMax

/-- The session reads the lines, and `tail` behind them; `future` is still to come. -/
structure Reading (lines : List Bytes) (tail : Bytes) (s : Session) (future : Bytes) : Prop where
  place : ∃ done todo, lines = done ++ todo ∧ s.msg.data = text done ∧
    s.buf ++ future = stuffed todo ++ tail
  state : s.state = .dataBody
  waiting : s.waiting = false
  closed : s.closed = false
  working : s.working = none
  writing : OnlyCloses s
  quiet : Short lines tail → s.writing = none
  idle : s.pumping = false → lf ∉ s.buf ∧ (lineMax < s.buf.length → s.writing ≠ none)

theorem stuffed_cons (l : Bytes) (todo : List Bytes) (tail : Bytes) :
    stuffed (l :: todo) ++ tail = (stuff l ++ [cr]) ++ lf :: (stuffed todo ++ tail) := by
  rw [stuffed, List.flatMap_cons]
  simp [stuffed, crlf, cr, lf]

section Reading

variable {cfg : Config} {lines : List Bytes} {tail future : Bytes} {s s' : Session}

theorem Reading.recv {bytes : Bytes} (h : Reading lines tail s (bytes ++ future))
    (hne : bytes ≠ []) : Reading lines tail (onData cfg s bytes) future := by
  obtain ⟨done, todo, hlines, hdata, hbuf⟩ := h.place
  rw [onData_open hne h.waiting]
  refine ⟨⟨done, todo, hlines, hdata, ?_⟩, h.state, h.waiting, h.closed, h.working, h.writing,
    h.quiet, nofun⟩
  rw [← hbuf, List.append_assoc]

/-- No line has arrived: the session waits, and a long line makes it close. -/
theorem Reading.wait (hlf : ∀ l ∈ lines, lf ∉ l) (h : Reading lines tail s future)
    (hnone : breakOn [lf] s.buf = none) : Reading lines tail (pumpTurn cfg s) future := by
  obtain ⟨done, todo, hlines, hdata, hbuf⟩ := h.place
  have hnot : lf ∉ s.buf := notMem_of_breakOn hnone
  have hshort : Short lines tail → s.buf.length ≤ lineMax := by
    rintro ⟨hfirst, hlast⟩
    cases todo with
    | nil => exact hlast s.buf future hbuf.symm hnot
    | cons l todo =>
      have hl : l ∈ lines := by
        rw [hlines]
        simp
      have hline := hfirst l hl
      rw [stuffed_cons] at hbuf
      rcases front_line (notMem_stuff_cr (hlf l hl)) hbuf with ⟨rest, hrest, -⟩ | ⟨-, hle⟩
      · rw [hnone] at hrest
        cases hrest
      · rw [List.length_append, List.length_singleton] at hle
        omega
  rw [pumpTurn, hnone]
  dsimp only
  split
  · rename_i hlong
    refine ⟨⟨done, todo, hlines, hdata, hbuf⟩, h.state, h.waiting, h.closed, h.working, ?_, ?_,
      fun _ => ⟨hnot, fun _ => Option.some_ne_none _⟩⟩
    · intro reply next hr
      cases hr
      rfl
    · intro hs
      exact absurd (hshort hs) (Nat.not_le.mpr hlong)
  · rename_i hlong
    exact ⟨⟨done, todo, hlines, hdata, hbuf⟩, h.state, h.waiting, h.closed, h.working, h.writing,
      h.quiet, fun _ => ⟨hnot, fun h => absurd h hlong⟩⟩

/-- A step of a session that reads the lines, unless it is the turn that takes the first
line behind them. -/
theorem Reading.step (hlf : ∀ l ∈ lines, lf ∉ l) (hmax : (text lines).length ≤ cfg.maxMsg)
    {e : Event} (h : Reading lines tail s (e.bytes ++ future)) (hs : step cfg s e = some s')
    (he : e.Quiet) :
    Reading lines tail s' future ∨
    (e = .turn ∧ s.msg.data = text lines ∧ s.buf ++ future = tail ∧ lf ∈ s.buf ∧
      s' = pumpTurn cfg s) := by
  cases e with
  | written ok => exact he.elim
  | workerDone accepted => exact he.elim
  | recv bytes =>
    rw [Smtp.step] at hs
    split at hs
    · cases hs
    · cases hs
      exact Or.inl (h.recv he.1)
  | turn =>
    rw [Smtp.step] at hs
    split at hs
    · cases hs
      have hfuture : Event.turn.bytes ++ future = future := rfl
      rw [hfuture] at h
      cases hbreak : breakOn [lf] s.buf with
      | none => exact Or.inl (h.wait hlf hbreak)
      | some found =>
        obtain ⟨line, rest⟩ := found
        obtain ⟨hbufeq, -⟩ := breakOn_single_eq hbreak
        obtain ⟨done, todo, hlines, hdata, hbuf⟩ := h.place
        cases todo with
        | nil =>
          rw [List.append_nil] at hlines
          exact Or.inr ⟨rfl, by rw [hdata, hlines], hbuf, by rw [hbufeq]; simp, rfl⟩
        | cons l todo =>
          have hl : l ∈ lines := by
            rw [hlines]
            simp
          rw [stuffed_cons] at hbuf
          rcases front_line (notMem_stuff_cr (hlf l hl)) hbuf with ⟨rest', hrest, hfuture'⟩ | ⟨hno, -⟩
          · rw [hbreak] at hrest
            cases hrest
            have hsame : s.msg.data ++ unstuff (stripCr (stuff l ++ [cr])) ++ crlf =
                text (done ++ [l]) := by
              rw [stripCr_append, unstuff_stuff, hdata, text_append]
              simp [text]
            have hfit : (text (done ++ [l])).length ≤ cfg.maxMsg := by
              rw [hlines, text_append, List.length_append] at hmax
              rw [text_append, List.length_append]
              have hone : (text [l]).length ≤ (text (l :: todo)).length := by simp [text]
              omega
            refine Or.inl ?_
            rw [pumpTurn_text h.state hbreak (by rw [stripCr_append]; exact stuff_ne_dot l)
              (by rw [hsame]; exact hfit), hsame]
            refine ⟨⟨done ++ [l], todo, ?_, rfl, hfuture'⟩, h.state, rfl, h.closed, h.working,
              h.writing, h.quiet, ?_⟩
            · rw [hlines, List.append_assoc]
              rfl
            · rename_i hpumping
              intro hnot
              cases hpumping.symm.trans hnot
          · exact absurd (by rw [hbufeq]; simp) hno
    · cases hs

end Reading

/-! ## The message is handed over -/

/-- The reply to DATA has just been written. -/
structure BodyStart (s : Session) : Prop where
  state : s.state = .dataBody
  data : s.msg.data = []
  waiting : s.waiting = false
  closed : s.closed = false
  pumping : s.pumping = true
  writing : s.writing = none
  working : s.working = none

/-- The handler gets exactly the text, however the bytes arrive, and the message ends
with its last byte and not before.  A server that signs the mail of its own clients
puts the signature in front. -/
def Faithful (cfg : Config) (lines : List Bytes) : Prop :=
  ∀ s events s', BodyStart s → steps cfg s events = some s' → (∀ e ∈ events, e.Client) →
    s'.pumping = false →
    (∀ rest, s.buf ++ received events = encoded lines ++ rest →
      ∃ m, s'.working = some m ∧ m.data = text lines ∧
        (m.authenticated = false ∨ cfg.dkim = false → handlerText cfg m = text lines) ∧
        (s'.closed = false → s'.buf = rest)) ∧
    (∀ more, more ≠ [] → s.buf ++ received events ++ more = encoded lines →
      s'.closed = false ∧ s'.working = none ∧ s'.state = .dataBody)

/-- A worker has the message, and what arrives waits. -/
structure Handed (lines : List Bytes) (rest : Bytes) (s : Session) (future : Bytes) : Prop where
  mail : ∃ m, s.working = some m ∧ m.data = text lines
  waiting : s.waiting = true
  pumping : s.pumping = false
  writing : s.writing = none
  place : ∃ arrived, rest = arrived ++ future ∧ (s.closed = false → s.buf = arrived)

section Handed

variable {cfg : Config} {lines : List Bytes} {rest future : Bytes} {s s' : Session}

theorem BodyStart.reading (h : BodyStart s) {tail : Bytes}
    (hbuf : s.buf ++ future = stuffed lines ++ tail) : Reading lines tail s future where
  place := ⟨[], lines, rfl, h.data, hbuf⟩
  state := h.state
  waiting := h.waiting
  closed := h.closed
  working := h.working
  writing := by
    intro reply next hr
    rw [h.writing] at hr
    cases hr
  quiet _ := h.writing
  idle hnot := absurd (h.pumping.symm.trans hnot) nofun

theorem Handed.step {e : Event} (h : Handed lines rest s (e.bytes ++ future))
    (hs : step cfg s e = some s') (he : e.Client) : Handed lines rest s' future := by
  obtain ⟨arrived, hrest, hbuf⟩ := h.place
  cases e with
  | workerDone accepted => exact he.elim
  | written ok =>
    rw [Smtp.step, h.writing] at hs
    split at hs <;> cases hs
  | turn =>
    rw [Smtp.step, h.pumping] at hs
    cases hs
  | recv bytes =>
    rw [Smtp.step] at hs
    split at hs
    · cases hs
    · rename_i hguard
      cases hs
      simp only [Bool.or_eq_true, not_or, Bool.not_eq_true] at hguard
      have hplace : rest = (s.buf ++ bytes) ++ future := by
        rw [hbuf hguard.1.1, List.append_assoc]
        exact hrest
      rcases onData_waiting cfg he.1 h.waiting with heq | heq
      · rw [heq]
        exact ⟨h.mail, h.waiting, h.pumping, h.writing, _, hplace, fun _ => rfl⟩
      · rw [heq]
        exact ⟨h.mail, h.waiting, h.pumping, h.writing, _, hplace, fun h => by cases h⟩

/-- The dot behind the lines hands the message over. -/
theorem Reading.handed (h : Reading lines (46 :: crlf ++ rest) s future)
    (hquiet : s.writing = none) (hmax : (text lines).length ≤ cfg.maxMsg)
    (hdata : s.msg.data = text lines) (hbuf : s.buf ++ future = 46 :: crlf ++ rest)
    (hmem : lf ∈ s.buf) : Handed lines rest (pumpTurn cfg s) future := by
  have hdot : (46 :: crlf ++ rest : Bytes) = [46, cr] ++ lf :: rest := rfl
  rw [hdot] at hbuf
  rcases front_line (by decide) hbuf with ⟨left, hline, hfuture⟩ | ⟨hno, -⟩
  · rw [pumpTurn_dot h.state hline (by decide) (by rw [hdata]; exact hmax)]
    exact ⟨⟨s.msg, rfl, hdata⟩, rfl, rfl, hquiet, left, hfuture.symm, fun _ => rfl⟩
  · exact absurd hmem hno

theorem handlerText_unsigned {m : Mail} (h : m.authenticated = false ∨ cfg.dkim = false) :
    handlerText cfg m = m.data := by
  rw [handlerText]
  rcases h with h | h <;> simp [h]

/-- A client event is one without replies, or a reply that has been written. -/
theorem Event.Client.cases {e : Event} (h : e.Client) : e.Quiet ∨ e = .written true := by
  cases e with
  | recv bytes => exact Or.inl h
  | turn => exact Or.inl trivial
  | written ok =>
    obtain rfl : ok = true := h
    exact Or.inr rfl
  | workerDone accepted => exact h.elim

theorem short_dot (hshort : ∀ l ∈ lines, (stuff l).length + 1 ≤ lineMax) (rest : Bytes) :
    Short lines (46 :: crlf ++ rest) := by
  refine ⟨hshort, ?_⟩
  intro w z hw hnot
  have hfront : w ++ z = [46, cr] ++ lf :: rest := hw.symm
  rcases front_line (by decide) hfront with ⟨left, hline, -⟩ | ⟨-, hle⟩
  · obtain ⟨heq, -⟩ := breakOn_single_eq hline
    exact absurd (by rw [heq]; simp) hnot
  · exact Nat.le_trans hle (by decide)

/-- Along a run the session reads the lines, or the message has been handed over. -/
theorem reading_or_handed (hlf : ∀ l ∈ lines, lf ∉ l)
    (hshort : ∀ l ∈ lines, (stuff l).length + 1 ≤ lineMax)
    (hmax : (text lines).length ≤ cfg.maxMsg) {events : List Event} (hstart : BodyStart s)
    (hsteps : steps cfg s events = some s') (hclient : ∀ e ∈ events, e.Client)
    (hbuf : s.buf ++ (received events ++ future) = encoded lines ++ rest) :
    Reading lines (46 :: crlf ++ rest) s' future ∨ Handed lines rest s' future := by
  refine steps_keeps (I := fun s future =>
    Reading lines (46 :: crlf ++ rest) s future ∨ Handed lines rest s future) ?_ hsteps hclient
    (Or.inl (hstart.reading (hbuf.trans (by rw [encoded, List.append_assoc]))))
  rintro s e s' future hs he (h | h)
  · have hquiet := h.quiet (short_dot hshort rest)
    rcases he.cases with hq | rfl
    · rcases h.step hlf hmax hs hq with h' | ⟨rfl, hdata, hbuf, hmem, rfl⟩
      · exact Or.inl h'
      · exact Or.inr (Reading.handed h hquiet hmax hdata hbuf hmem)
    · rw [Smtp.step, hquiet] at hs
      split at hs <;> cases hs
  · exact Or.inr (h.step hs he)

/-- Lines without a bare LF and within 64 KB come through. -/
theorem faithful_of_short (hlf : ∀ l ∈ lines, lf ∉ l)
    (hshort : ∀ l ∈ lines, (stuff l).length + 1 ≤ lineMax)
    (hmax : (text lines).length ≤ cfg.maxMsg) : Faithful cfg lines := by
  intro s events s' hstart hsteps hclient hidle
  constructor
  · intro rest hbuf
    have hbuf' : s.buf ++ (received events ++ []) = encoded lines ++ rest := by
      rw [List.append_nil]
      exact hbuf
    rcases reading_or_handed hlf hshort hmax hstart hsteps hclient hbuf' with h | h
    · -- The dot is in the buffer, so the loop would go on.
      obtain ⟨done, todo, -, -, hplace⟩ := h.place
      refine absurd ?_ (h.idle hidle).1
      rw [List.append_nil] at hplace
      rw [hplace]
      simp [crlf, lf]
    · obtain ⟨m, hm, hdata⟩ := h.mail
      obtain ⟨arrived, hrest, hclosed⟩ := h.place
      refine ⟨m, hm, hdata, fun hno => (handlerText_unsigned hno).trans hdata, fun hc => ?_⟩
      rw [hrest, List.append_nil]
      exact hclosed hc
  · intro more hne hbuf
    have hbuf' : s.buf ++ (received events ++ more) = encoded lines ++ [] := by
      rw [List.append_nil, ← List.append_assoc]
      exact hbuf
    rcases reading_or_handed hlf hshort hmax hstart hsteps hclient hbuf' with h | h
    · exact ⟨h.closed, h.working, h.state⟩
    · obtain ⟨arrived, hrest, -⟩ := h.place
      exact absurd (List.append_eq_nil_iff.mp hrest.symm).2 hne

end Handed

/-! ## Feeding a session byte by byte -/

section Feed

variable {cfg : Config} {s s' : Session}

/-- A turn of the loop in a message leaves the loop or takes a line off the buffer. -/
theorem pumpTurn_body (cfg : Config) (hstate : s.state = .dataBody) :
    (pumpTurn cfg s).state = .dataBody ∧ (pumpTurn cfg s).closed = s.closed ∧
    ((pumpTurn cfg s).pumping = false ∨ (pumpTurn cfg s).buf.length < s.buf.length) := by
  cases hbreak : breakOn [lf] s.buf with
  | none =>
    rw [pumpTurn, hbreak]
    dsimp only
    split
    · exact ⟨hstate, rfl, Or.inl rfl⟩
    · exact ⟨hstate, rfl, Or.inl rfl⟩
  | some found =>
    obtain ⟨line, rest⟩ := found
    obtain ⟨hbuf, -⟩ := breakOn_single_eq hbreak
    have hlen : rest.length < s.buf.length := by
      rw [hbuf, List.length_append, List.length_cons]
      omega
    by_cases hdot : stripCr line = [46]
    · by_cases hfit : s.msg.data.length ≤ cfg.maxMsg
      · rw [pumpTurn_dot hstate hbreak hdot hfit]
        exact ⟨hstate, rfl, Or.inl rfl⟩
      · have hlarge := pumpTurn_tooLarge hstate hbreak (Or.inl ⟨hdot, Nat.not_le.mp hfit⟩)
        exact ⟨hlarge.state.trans hstate, hlarge.closed, Or.inl hlarge.pumping⟩
    · by_cases hfit : (s.msg.data ++ unstuff (stripCr line) ++ crlf).length ≤ cfg.maxMsg
      · rw [pumpTurn_text hstate hbreak hdot hfit]
        exact ⟨hstate, rfl, Or.inr hlen⟩
      · have hlarge := pumpTurn_tooLarge hstate hbreak (Or.inr ⟨hdot, Nat.not_le.mp hfit⟩)
        exact ⟨hlarge.state.trans hstate, hlarge.closed, Or.inl hlarge.pumping⟩

theorem steps_append {a b : List Event} {t : Session} (ha : steps cfg s a = some t)
    (hb : steps cfg t b = some s') : steps cfg s (a ++ b) = some s' := by
  rw [steps, List.foldlM_append]
  exact (congrArg (· >>= fun t => b.foldlM (step cfg) t) ha).trans hb

/-- The loop comes to its end. -/
theorem exists_settle (cfg : Config) (hstate : s.state = .dataBody) :
    ∃ events t, steps cfg s events = some t ∧ (∀ e ∈ events, e = .turn) ∧ t.pumping = false ∧
      t.state = .dataBody ∧ t.closed = s.closed := by
  induction hlen : s.buf.length using Nat.strongRecOn generalizing s with
  | ind len ih =>
    subst hlen
    cases hpumping : s.pumping with
    | false => exact ⟨[], s, rfl, nofun, hpumping, hstate, rfl⟩
    | true =>
      have hturn : steps cfg s [.turn] = some (pumpTurn cfg s) := by
        have hstep : step cfg s .turn = some (pumpTurn cfg s) := by rw [step, if_pos hpumping]
        exact (congrArg (· >>= pure) hstep).trans rfl
      obtain ⟨hstate', hclosed', hend | hless⟩ := pumpTurn_body cfg hstate
      · exact ⟨[.turn], _, hturn, by simp, hend, hstate', hclosed'⟩
      · obtain ⟨events, t, hsteps, hall, hrest⟩ := ih _ hless hstate' rfl
        refine ⟨.turn :: events, t, steps_append hturn hsteps, ?_, hrest.1, hrest.2.1,
          hrest.2.2.trans hclosed'⟩
        exact List.forall_mem_cons.mpr ⟨rfl, hall⟩

theorem onData_state (bytes : Bytes) : (onData cfg s bytes).state = s.state := by
  rw [onData]
  split
  · rfl
  · dsimp only
    split
    · split <;> rfl
    · rfl

theorem received_turns {events : List Event} (h : ∀ e ∈ events, e = .turn) :
    received events = [] := by
  rw [received, List.flatMap_eq_nil_iff]
  intro e he
  rw [h e he]
  rfl

theorem received_append (a b : List Event) : received (a ++ b) = received a ++ received b :=
  List.flatMap_append

/-- Every session in a message can be fed all the bytes, or closes before. -/
theorem exists_feed (cfg : Config) (bytes : Bytes) (hstate : s.state = .dataBody) :
    ∃ events t p q, bytes = p ++ q ∧ steps cfg s events = some t ∧ (∀ e ∈ events, e.Quiet) ∧
      received events = p ∧ t.pumping = false ∧ (q = [] ∨ t.closed = true) := by
  induction bytes generalizing s with
  | nil =>
    obtain ⟨events, t, hsteps, hall, hidle, -, -⟩ := exists_settle cfg hstate
    refine ⟨events, t, [], [], rfl, hsteps, ?_, received_turns hall, hidle, Or.inl rfl⟩
    intro e he
    rw [hall e he]
    trivial
  | cons b bytes ih =>
    obtain ⟨events, t, hsteps, hall, hidle, hstate', -⟩ := exists_settle cfg hstate
    have hquiet : ∀ e ∈ events, e.Quiet := by
      intro e he
      rw [hall e he]
      trivial
    cases hclosed : t.closed with
    | true =>
      exact ⟨events, t, [], b :: bytes, rfl, hsteps, hquiet, received_turns hall, hidle,
        Or.inr hclosed⟩
    | false =>
      have hrecv : steps cfg t [.recv [b]] = some (onData cfg t [b]) := by
        have hstep : step cfg t (.recv [b]) = some (onData cfg t [b]) := by
          rw [step, hclosed, hidle, hstate']
          rfl
        exact (congrArg (· >>= pure) hstep).trans rfl
      obtain ⟨events', t', p, q, rfl, hsteps', hquiet', hp, hidle', hq⟩ :=
        ih ((onData_state [b]).trans hstate')
      refine ⟨events ++ ([.recv [b]] ++ events'), t', b :: p, q, rfl,
        steps_append hsteps (steps_append hrecv hsteps'), ?_, ?_, hidle', hq⟩
      · intro e he
        rw [List.mem_append, List.mem_append, List.mem_singleton] at he
        rcases he with he | rfl | he
        · exact hquiet e he
        · exact ⟨List.cons_ne_nil _ _, by simp⟩
        · exact hquiet' e he
      · rw [received_append, received_append, received_turns hall, hp]
        rfl

end Feed

/-! ## Lines that do not come through -/

/-- The session has taken text that begins like this. -/
structure Took (data : Bytes) (s : Session) : Prop where
  state : s.state = .dataBody
  text : s.waiting = false ∧ s.working = none ∧ data <+: s.msg.data ∨
    s.waiting = true ∧ s.pumping = false ∧ ∀ m, s.working = some m → data <+: m.data

section Lost

variable {cfg : Config} {lines : List Bytes} {s s' : Session}

theorem Took.step {data : Bytes} {e : Event} (h : Took data s) (hs : step cfg s e = some s')
    (he : e.Quiet) : Took data s' := by
  have hstate := h.state
  cases e with
  | written ok => exact he.elim
  | workerDone accepted => exact he.elim
  | recv bytes =>
    rw [Smtp.step] at hs
    split at hs
    · cases hs
    · cases hs
      rcases h.text with ⟨hwaiting, hworking, hdata⟩ | ⟨hwaiting, hpumping, hall⟩
      · rw [onData_open he.1 hwaiting]
        exact ⟨hstate, Or.inl ⟨hwaiting, hworking, hdata⟩⟩
      · rcases onData_waiting cfg he.1 hwaiting with heq | heq
        · rw [heq]
          exact ⟨hstate, Or.inr ⟨hwaiting, hpumping, hall⟩⟩
        · rw [heq]
          exact ⟨hstate, Or.inr ⟨hwaiting, hpumping, hall⟩⟩
  | turn =>
    rw [Smtp.step] at hs
    split at hs
    · rename_i hpumping
      cases hs
      refine ⟨(pumpTurn_body cfg hstate).1, ?_⟩
      rcases h.text with ⟨hwaiting, hworking, hdata⟩ | ⟨-, hnot, -⟩
      · cases hbreak : breakOn [lf] s.buf with
        | none =>
          rw [pumpTurn, hbreak]
          dsimp only
          split
          · exact Or.inl ⟨hwaiting, hworking, hdata⟩
          · exact Or.inl ⟨hwaiting, hworking, hdata⟩
        | some found =>
          obtain ⟨line, rest⟩ := found
          have hlarge : ∀ {t}, TooLarge s t → t.waiting = true ∧ t.pumping = false ∧
              ∀ m, t.working = some m → data <+: m.data := by
            intro t ht
            refine ⟨ht.waiting, ht.pumping, ?_⟩
            intro m hm
            rw [ht.working, hworking] at hm
            cases hm
          by_cases hdot : stripCr line = [46]
          · by_cases hfit : s.msg.data.length ≤ cfg.maxMsg
            · rw [pumpTurn_dot hstate hbreak hdot hfit]
              refine Or.inr ⟨rfl, rfl, ?_⟩
              intro m hm
              cases hm
              exact hdata
            · exact Or.inr (hlarge (pumpTurn_tooLarge hstate hbreak
                (Or.inl ⟨hdot, Nat.not_le.mp hfit⟩)))
          · by_cases hfit : (s.msg.data ++ unstuff (stripCr line) ++ crlf).length ≤ cfg.maxMsg
            · rw [pumpTurn_text hstate hbreak hdot hfit]
              refine Or.inl ⟨rfl, hworking, ?_⟩
              rw [List.append_assoc]
              exact hdata.trans (List.prefix_append _ _)
            · exact Or.inr (hlarge (pumpTurn_tooLarge hstate hbreak
                (Or.inr ⟨hdot, Nat.not_le.mp hfit⟩)))
      · cases hpumping.symm.trans hnot
    · cases hs

/-- A session at the start of a message, with nothing in its buffer. -/
def freshBody (cfg : Config) : Session :=
  { Session.start cfg false [] with state := .dataBody, pumping := true, writing := none }

theorem freshBody_start (cfg : Config) : BodyStart (freshBody cfg) :=
  ⟨rfl, rfl, rfl, rfl, rfl, rfl, rfl⟩

theorem Event.Quiet.client {e : Event} (h : e.Quiet) : e.Client := by
  cases e with
  | recv bytes => exact h
  | turn => trivial
  | written ok => exact h.elim
  | workerDone accepted => exact h.elim

theorem stuff_getLast? (x : Bytes) : (stuff x).getLast? = x.getLast? := by
  unfold stuff
  split
  · rw [List.getLast?_cons_cons]
  · rfl

theorem stuff_append_lf (x y : Bytes) : stuff (x ++ lf :: y) = stuff x ++ lf :: y := by
  cases x with
  | nil => rfl
  | cons b x =>
    by_cases hb : b = 46
    · subst hb
      rfl
    · have hsame : ∀ t, stuff (b :: t) = b :: t := by
        intro t
        unfold stuff
        split
        · rename_i heq
          cases heq
          exact absurd rfl hb
        · rfl
      rw [List.cons_append, hsame, hsame, List.cons_append]

/-- A bare LF ends the line and comes out as CRLF. -/
theorem Reading.took {before : List Bytes} {x z future : Bytes} (hx : lf ∉ x)
    (hcr : x.getLast? ≠ some cr) (h : Reading before (stuff x ++ lf :: z) s future)
    (hdata : s.msg.data = text before) (hbuf : s.buf ++ future = stuff x ++ lf :: z)
    (hmem : lf ∈ s.buf) : Took (text before ++ x ++ crlf) (pumpTurn cfg s) := by
  rcases front_line (notMem_stuff hx (by decide)) hbuf with ⟨rest, hline, -⟩ | ⟨hno, -⟩
  · have hstrip : stripCr (stuff x) = stuff x := by
      rw [stripCr, stuff_getLast?, if_neg hcr]
    refine ⟨(pumpTurn_body cfg h.state).1, ?_⟩
    by_cases hfit : (s.msg.data ++ unstuff (stripCr (stuff x)) ++ crlf).length ≤ cfg.maxMsg
    · rw [pumpTurn_text h.state hline (by rw [hstrip]; exact stuff_ne_dot x) hfit]
      have hsame : text before ++ x ++ crlf =
          s.msg.data ++ unstuff (stripCr (stuff x)) ++ crlf := by
        rw [hstrip, unstuff_stuff, hdata]
      exact Or.inl ⟨rfl, h.working, hsame ▸ List.prefix_refl _⟩
    · have hlarge := pumpTurn_tooLarge h.state hline
        (Or.inr ⟨by rw [hstrip]; exact stuff_ne_dot x, Nat.not_le.mp hfit⟩)
      refine Or.inr ⟨hlarge.waiting, hlarge.pumping, ?_⟩
      intro m hm
      rw [hlarge.working, h.working] at hm
      cases hm
  · exact absurd hmem hno

/-- Text with a CRLF where the lines have a bare LF is not their text. -/
theorem not_prefix_text {before after : List Bytes} {x y : Bytes} :
    ¬ text before ++ x ++ crlf <+: text (before ++ (x ++ lf :: y) :: after) := by
  have htext : text (before ++ (x ++ lf :: y) :: after) =
      text before ++ x ++ (lf :: (y ++ crlf ++ text after)) := by
    rw [text_append]
    simp [text]
  rw [htext, List.prefix_append_right_inj]
  rintro ⟨t, ht⟩
  cases ht

/-- Lines that come through have no bare LF. -/
theorem Faithful.no_lf (h : Faithful cfg lines) (hcrlf : ∀ l ∈ lines, ¬ crlf <:+: l)
    (hmax : (text lines).length ≤ cfg.maxMsg) : ∀ l ∈ lines, lf ∉ l := by
  by_contra hsome
  push Not at hsome
  -- The first line with a bare LF, and the part of it up to there.
  obtain ⟨before, l, after, hlines, hbefore, hl⟩ : ∃ before l after,
      lines = before ++ l :: after ∧ (∀ b ∈ before, lf ∉ b) ∧ lf ∈ l := by
    obtain ⟨l, hl, hmem⟩ := hsome
    have hfind : (lines.find? fun l => decide (lf ∈ l)).isSome = true := by
      rw [List.find?_isSome]
      exact ⟨l, hl, by simpa using hmem⟩
    obtain ⟨first, hfirst⟩ := Option.isSome_iff_exists.mp hfind
    obtain ⟨hp, before, after, hlines, hbefore⟩ := List.find?_eq_some_iff_append.mp hfirst
    exact ⟨before, first, after, hlines, fun b hb => by simpa using hbefore b hb, by simpa using hp⟩
  obtain ⟨x, y, rfl, hx⟩ := List.eq_append_cons_of_mem hl
  have hcr : x.getLast? ≠ some cr := by
    intro hlast
    obtain ⟨x', rfl⟩ := List.getLast?_eq_some_iff.mp hlast
    refine hcrlf (x' ++ [cr] ++ lf :: y) (by rw [hlines]; simp) ⟨x', y, ?_⟩
    simp [crlf, cr, lf]
  have hbytes : encoded lines = stuffed before ++ (stuff x ++ lf ::
      (y ++ crlf ++ stuffed after ++ 46 :: crlf)) := by
    rw [hlines, encoded, stuffed, List.flatMap_append, List.flatMap_cons, stuff_append_lf]
    simp [stuffed]
  obtain ⟨events, t, p, q, hpq, hsteps, hquiet, hp, hidle, hend⟩ :=
    exists_feed cfg (encoded lines) (s := freshBody cfg) rfl
  have hstart : (freshBody cfg).buf ++ (received events ++ q) = encoded lines := by
    rw [hp, ← hpq]
    rfl
  have hbmax : (text before).length ≤ cfg.maxMsg := by
    rw [hlines, text_append, List.length_append] at hmax
    omega
  have hreached := steps_keeps (I := fun s future => Reading before (stuff x ++ lf ::
      (y ++ crlf ++ stuffed after ++ 46 :: crlf)) s future ∨ Took (text before ++ x ++ crlf) s)
    (by
      rintro s e s' future hs he (hr | ht)
      · rcases hr.step hbefore hbmax hs he with hr' | ⟨rfl, hdata, hbuf, hmem, rfl⟩
        · exact Or.inl hr'
        · exact Or.inr (Reading.took hx hcr hr hdata hbuf hmem)
      · exact Or.inr (ht.step hs he))
    hsteps hquiet (Or.inl ((freshBody_start cfg).reading (hstart.trans hbytes)))
  obtain ⟨hall, hpart⟩ := h _ events t (freshBody_start cfg) hsteps
    (fun e he => (hquiet e he).client) hidle
  rw [hp] at hall hpart
  by_cases hq : q = []
  · subst hq
    rw [List.append_nil] at hpq
    rcases hreached with hr | ht
    · obtain ⟨done, todo, -, -, hplace⟩ := hr.place
      refine absurd ?_ (hr.idle hidle).1
      rw [List.append_nil] at hplace
      rw [hplace]
      simp
    · obtain ⟨m, hm, hdata, -, -⟩ := hall [] (by rw [List.append_nil, hpq]; rfl)
      rcases ht.text with ⟨-, hnone, -⟩ | ⟨-, -, hprefix⟩
      · rw [hnone] at hm
        cases hm
      · have hlost := hprefix m hm
        rw [hdata, hlines] at hlost
        exact not_prefix_text hlost
  · have hopen := (hpart q hq (by rw [hpq]; rfl)).1
    exact absurd (hopen.symm.trans (hend.resolve_left hq)) nofun

/-- Lines that come through are not too long. -/
theorem Faithful.short (h : Faithful cfg lines) (hlf : ∀ l ∈ lines, lf ∉ l)
    (hmax : (text lines).length ≤ cfg.maxMsg) {l : Bytes} (hl : l ∈ lines) :
    (stuff l).length + 1 ≤ lineMax := by
  by_contra hlong
  obtain ⟨before, after, hlines⟩ := List.append_of_mem hl
  have htail : lf ∉ stuff l ++ [cr] := notMem_stuff_cr (hlf l hl)
  have hbytes : encoded lines = stuffed before ++ (stuff l ++ [cr]) ++
      (lf :: (stuffed after ++ 46 :: crlf)) := by
    rw [hlines, encoded, stuffed, List.flatMap_append, List.flatMap_cons]
    simp [stuffed, crlf, cr, lf]
  obtain ⟨events, t, p, q, hpq, hsteps, hquiet, hp, hidle, hend⟩ :=
    exists_feed cfg (stuffed before ++ (stuff l ++ [cr])) (s := freshBody cfg) rfl
  have hbmax : (text before).length ≤ cfg.maxMsg := by
    rw [hlines, text_append, List.length_append] at hmax
    omega
  have hreading : Reading before (stuff l ++ [cr]) t q := by
    refine steps_keeps (I := Reading before (stuff l ++ [cr])) ?_ hsteps hquiet
      ((freshBody_start cfg).reading (by rw [hp, ← hpq]; rfl))
    intro s e s' future hs he hr
    rcases hr.step (fun b hb => hlf b (by rw [hlines]; exact List.mem_append_left _ hb)) hbmax hs he
      with hr' | ⟨rfl, -, hbuf, hmem, -⟩
    · exact hr'
    · refine absurd ?_ htail
      rw [← hbuf]
      exact List.mem_append_left _ hmem
  have hq : q = [] := by
    rcases hend with hq | hclosed
    · exact hq
    · cases hreading.closed.symm.trans hclosed
  subst hq
  rw [List.append_nil] at hpq
  -- The long line is in the buffer, and the reply that closes the session is under way.
  obtain ⟨done, todo, -, -, hplace⟩ := hreading.place
  obtain ⟨hnot, hwriting⟩ := hreading.idle hidle
  rw [List.append_nil] at hplace
  have htodo : todo = [] := by
    cases todo with
    | nil => rfl
    | cons l' todo =>
      refine absurd ?_ hnot
      rw [hplace, stuffed_cons]
      simp
  have hbuf : t.buf = stuff l ++ [cr] := by
    rw [hplace, htodo]
    rfl
  obtain ⟨⟨reply, next⟩, hreply⟩ := Option.ne_none_iff_exists'.mp (hwriting (by
    rw [hbuf, List.length_append, List.length_singleton]
    omega))
  obtain rfl := hreading.writing reply next hreply
  have hwritten : steps cfg t [.written true] = some (closeSession { t with writing := none }) := by
    have hstep : step cfg t (.written true) = some (closeSession { t with writing := none }) := by
      rw [step, hreading.closed, hidle, hreply]
      rfl
    exact (congrArg (· >>= pure) hstep).trans rfl
  have hclient : ∀ e ∈ events ++ [.written true], e.Client := by
    intro e he
    rcases List.mem_append.mp he with he | he
    · exact (hquiet e he).client
    · rw [List.mem_singleton.mp he]
      rfl
  have hopen := ((h _ _ _ (freshBody_start cfg) (steps_append hsteps hwritten) hclient hidle).2
    (lf :: (stuffed after ++ 46 :: crlf)) (List.cons_ne_nil _ _) (by
      rw [received_append, hp, ← hpq, hbytes]
      simp [received, Event.bytes, freshBody, Session.start])).1
  cases hopen

/-- A text of lines comes through exactly when none of them has a bare LF and each of
them is at most 64 KB, with the dot in front and the CR at its end. -/
theorem faithful_iff (cfg : Config) (lines : List Bytes) (hcrlf : ∀ l ∈ lines, ¬ crlf <:+: l)
    (hmax : (text lines).length ≤ cfg.maxMsg) :
    Faithful cfg lines ↔ ∀ l ∈ lines, lf ∉ l ∧ (stuff l).length + 1 ≤ 64 * 1024 := by
  constructor
  · intro h l hl
    have hlf := h.no_lf hcrlf hmax
    exact ⟨hlf l hl, h.short hlf hmax hl⟩
  · intro h
    exact faithful_of_short (fun l hl => (h l hl).1) (fun l hl => (h l hl).2) hmax

end Lost

theorem not_infix_of_breakOn {l : Bytes} (h : breakOn crlf l = none) : ¬ crlf <:+: l := by
  rintro ⟨x, y, hxy⟩
  obtain ⟨x', y', hsome⟩ := breakOn_isSome (by decide) hxy.symm
  rw [hsome] at h
  cases h

theorem faithful_iff_dot : Faithful (smallConfig 100) [ascii "hi", ascii ".x"] := by
  refine (faithful_iff (smallConfig 100) [ascii "hi", ascii ".x"] ?_ (by decide)).mpr (by decide)
  exact List.forall_mem_cons.mpr ⟨not_infix_of_breakOn rfl,
    List.forall_mem_singleton.mpr (not_infix_of_breakOn rfl)⟩

/-- A dot between two bare LFs ends the message, and what stands behind it waits to be
taken as commands. -/
theorem faithful_bare_lf :
    (steps (smallConfig 100) (freshBody (smallConfig 100))
      [.turn, .recv (encoded [ascii "a\n.\nQUIT"]), .turn, .turn]).map
      (fun s => (s.working.map Mail.data, s.buf)) =
      some (some (ascii "a\r\n"), ascii "QUIT\r\n.\r\n") ∧
    ¬ Faithful (smallConfig 100) [ascii "a\n.\nQUIT"] := by
  refine ⟨by decide +kernel, ?_⟩
  intro h
  exact h.no_lf (List.forall_mem_singleton.mpr (not_infix_of_breakOn rfl)) (by decide)
    (ascii "a\n.\nQUIT") List.mem_cons_self (by decide)

end Smtp

end Look
