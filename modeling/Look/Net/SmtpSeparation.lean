/-
Commands and message text are kept apart, as long as no message grows too large.

Between the reply to DATA and the line with the dot every line belongs to the
message.  When a message grows over the limit in the middle, the session answers and
goes back to commands without waiting for the dot, so that the rest of the message is
taken as commands.  In every run in which this does not happen, commands and text are
kept apart.
-/
import Mathlib.Data.List.Induction
import Look.Lib.Reach
import Look.Net.Smtp

namespace Look

namespace Smtp

open Http (Bytes lf cr crlf)

/-! ## What is asked of the log -/

/-- The text of the lines of a message. -/
def textOf : List Obs → Bytes
  | [] => []
  | .text line :: rest => unstuff line ++ crlf ++ textOf rest
  | _ :: rest => textOf rest

/-- Commands and message text are kept apart: no line behind the reply to DATA is a
command before the line with the dot, a line is text only in such a message, and a
worker gets exactly the lines of the message. -/
structure Separated (log : List Obs) : Prop where
  noCommand : ∀ a b c line, log = a ++ .start :: (b ++ .command line :: c) →
    ∃ handed, .dot handed ∈ b
  noText : ∀ a b line, log = a ++ .text line :: b →
    ∃ a1 a2, a = a1 ++ .start :: a2 ∧ ∀ handed, .dot handed ∉ a2
  handed : ∀ a b c data, log = a ++ .start :: (b ++ .dot (some data) :: c) →
    (∀ o ∈ b, ∃ line, o = .text line) → data = textOf b

/-- Where an observer of the log is: among commands, or in a message with this text. -/
inductive Mode where
  | commands
  | body (text : Bytes)
deriving DecidableEq

/-- The observer accepts an entry or not. -/
def watch : Mode → Obs → Option Mode
  | .commands, .command _ => some .commands
  | .commands, .start => some (.body [])
  | .body text, .text line => some (.body (text ++ (unstuff line ++ crlf)))
  | .body text, .dot (some data) => if data = text then some .commands else none
  | .body _, .dot none => some .commands
  | _, _ => none

section Watch

variable {log : List Obs} {mode mode' : Mode}

/-- The observer has accepted the whole log. -/
def Watched (log : List Obs) (mode : Mode) : Prop := log.foldlM watch .commands = some mode

theorem foldlM_append_some {a b : List Obs} (h : (a ++ b).foldlM watch mode = some mode') :
    ∃ m, a.foldlM watch mode = some m ∧ b.foldlM watch m = some mode' := by
  rw [List.foldlM_append, Option.bind_eq_bind, Option.bind_eq_some_iff] at h
  exact h

theorem foldlM_cons_some {o : Obs} {b : List Obs} (h : (o :: b).foldlM watch mode = some mode') :
    ∃ m, watch mode o = some m ∧ b.foldlM watch m = some mode' := by
  rw [List.foldlM_cons, Option.bind_eq_bind, Option.bind_eq_some_iff] at h
  exact h

theorem Watched.snoc {o : Obs} (h : Watched log mode) (ho : watch mode o = some mode') :
    Watched (log ++ [o]) mode' := by
  rw [Watched, List.foldlM_append, h]
  exact (congrArg (· >>= pure) ho).trans rfl

/-- A message ends with the dot only. -/
theorem exists_dot {text : Bytes} {b : List Obs}
    (h : b.foldlM watch (.body text) = some .commands) : ∃ handed, .dot handed ∈ b := by
  induction b generalizing text with
  | nil => cases h
  | cons o b ih =>
    obtain ⟨m, hm, hrest⟩ := foldlM_cons_some h
    cases o with
    | command line => cases hm
    | start => cases hm
    | text line =>
      cases hm
      obtain ⟨handed, hmem⟩ := ih hrest
      exact ⟨handed, List.mem_cons_of_mem _ hmem⟩
    | dot handed => exact ⟨handed, List.mem_cons_self⟩

/-- A message begins with the reply to DATA, and has no dot since. -/
theorem exists_start {text : Bytes} (h : Watched log (.body text)) :
    ∃ a b, log = a ++ .start :: b ∧ ∀ handed, .dot handed ∉ b := by
  induction log using List.reverseRecOn generalizing text with
  | nil => cases h
  | append_singleton log o ih =>
    obtain ⟨m, hm, hlast⟩ := foldlM_append_some h
    obtain ⟨m', ho, hm'⟩ := foldlM_cons_some hlast
    cases hm'
    cases o with
    | command line => cases m <;> cases ho
    | start => exact ⟨log, [], rfl, nofun⟩
    | text line =>
      cases m with
      | commands => cases ho
      | body text' =>
        obtain ⟨a, b, rfl, hb⟩ := ih hm
        refine ⟨a, b ++ [.text line], by simp, ?_⟩
        intro handed hmem
        rw [List.mem_append, List.mem_singleton] at hmem
        rcases hmem with hmem | hmem
        · exact hb handed hmem
        · cases hmem
    | dot handed =>
      cases m with
      | commands => cases ho
      | body text' =>
        cases handed with
        | none => cases ho
        | some data =>
          rw [watch] at ho
          split at ho <;> cases ho

theorem foldlM_text (text : Bytes) {b : List Obs} (hb : ∀ o ∈ b, ∃ line, o = .text line) :
    b.foldlM watch (.body text) = some (.body (text ++ textOf b)) := by
  induction b generalizing text with
  | nil => exact congrArg (fun t => some (Mode.body t)) (List.append_nil text).symm
  | cons o b ih =>
    obtain ⟨line, rfl⟩ := hb o List.mem_cons_self
    have hrest := ih (text ++ (unstuff line ++ crlf)) fun o ho =>
      hb o (List.mem_cons_of_mem _ ho)
    rw [List.append_assoc] at hrest
    exact hrest

/-- A log that the observer accepts keeps commands and text apart. -/
theorem Watched.separated (h : Watched log mode) : Separated log where
  noCommand a b c line hlog := by
    rw [Watched, hlog] at h
    obtain ⟨m, -, h⟩ := foldlM_append_some h
    obtain ⟨m1, hstart, h⟩ := foldlM_cons_some h
    obtain ⟨m2, hb, h⟩ := foldlM_append_some h
    obtain ⟨m3, hcommand, -⟩ := foldlM_cons_some h
    obtain rfl : m1 = .body [] := by
      cases m <;> cases hstart
      rfl
    obtain rfl : m2 = .commands := by
      cases m2 <;> cases hcommand
      rfl
    exact exists_dot hb
  noText a b line hlog := by
    rw [Watched, hlog] at h
    obtain ⟨m, ha, h⟩ := foldlM_append_some h
    obtain ⟨m1, htext, -⟩ := foldlM_cons_some h
    cases m with
    | commands => cases htext
    | body text => exact exists_start ha
  handed a b c data hlog hb := by
    rw [Watched, hlog] at h
    obtain ⟨m, -, h⟩ := foldlM_append_some h
    obtain ⟨m1, hstart, h⟩ := foldlM_cons_some h
    obtain ⟨m2, hm2, h⟩ := foldlM_append_some h
    obtain ⟨m3, hdot, -⟩ := foldlM_cons_some h
    obtain rfl : m1 = .body [] := by
      cases m <;> cases hstart
      rfl
    rw [foldlM_text [] hb, List.nil_append] at hm2
    cases hm2
    rw [watch] at hdot
    split at hdot
    · assumption
    · cases hdot

end Watch

/-! ## What a command does -/

/-- A command leaves no text, and a reply under way: behind it the session goes on
outside a message, closes, or opens a message. -/
structure Answered (s s' : Session) : Prop where
  log : s'.log = s.log
  waiting : s'.waiting = s.waiting
  closed : s'.closed = s.closed
  pumping : s'.pumping = s.pumping
  working : s'.working = s.working
  data : s.msg.data = [] → s'.msg.data = []
  writing : ∃ reply, (s'.writing = some (reply, .resume) ∧ s'.state ≠ .dataBody) ∨
    s'.writing = some (reply, .close) ∨ s'.writing = some (reply, .toBody)

section Commands

variable {cfg : Config} {s : Session}

/-- The reply of a command that changes only the envelope. -/
theorem Answered.resume {s' : Session} (reply : Bytes) (hlog : s'.log = s.log)
    (hwaiting : s'.waiting = s.waiting) (hclosed : s'.closed = s.closed)
    (hpumping : s'.pumping = s.pumping) (hworking : s'.working = s.working)
    (hdata : s.msg.data = [] → s'.msg.data = []) (hstate : s'.state ≠ .dataBody) :
    Answered s (sendReply s' reply .resume) :=
  ⟨hlog, hwaiting, hclosed, hpumping, hworking, hdata, reply, Or.inl ⟨rfl, hstate⟩⟩

theorem errorReply_answered (hstate : s.state ≠ .dataBody) (reply : Bytes) :
    Answered s (errorReply cfg s reply) := by
  rw [errorReply]
  dsimp only
  split
  · exact ⟨rfl, rfl, rfl, rfl, rfl, id, _, Or.inr (Or.inl rfl)⟩
  · exact .resume _ rfl rfl rfl rfl rfl id hstate

theorem handleEhlo_answered (hstate : s.state ≠ .dataBody) (verb line : Bytes) :
    Answered s (handleEhlo cfg s verb line) := by
  rw [handleEhlo]
  split
  · exact errorReply_answered hstate _
  · exact .resume _ rfl rfl rfl rfl rfl id nofun

theorem handleAuth_answered (hstate : s.state ≠ .dataBody) (line : Bytes) :
    Answered s (handleAuth cfg s line) := by
  rw [handleAuth]
  split
  · exact errorReply_answered hstate _
  · split
    · exact errorReply_answered hstate _
    · split
      · exact errorReply_answered hstate _
      · split
        · exact errorReply_answered hstate _
        · dsimp only
          split
          · exact errorReply_answered hstate _
          · split
            · exact .resume _ rfl rfl rfl rfl rfl id hstate
            · exact errorReply_answered hstate _

theorem handleMail_answered (hstate : s.state ≠ .dataBody) (line : Bytes) :
    Answered s (handleMail cfg s line) := by
  rw [handleMail]
  split
  · exact errorReply_answered hstate _
  · split
    · exact errorReply_answered hstate _
    · split
      · exact errorReply_answered hstate _
      · split
        · exact errorReply_answered hstate _
        · exact .resume _ rfl rfl rfl rfl rfl id nofun

theorem handleReady_answered (hstate : s.state ≠ .dataBody) (verb line : Bytes) :
    Answered s (handleReady cfg s verb line) := by
  rw [handleReady]
  split
  · exact errorReply_answered hstate _
  · split
    · exact handleAuth_answered hstate line
    · split
      · exact handleMail_answered hstate line
      · split
        · exact handleEhlo_answered hstate verb line
        · exact errorReply_answered hstate _

theorem handleRcpt_answered (hstate : s.state ≠ .dataBody) (line : Bytes) :
    Answered s (handleRcpt cfg s line) := by
  rw [handleRcpt]
  split
  · exact errorReply_answered hstate _
  · exact .resume _ rfl rfl rfl rfl rfl id nofun

theorem handleRcptToState_answered (hstate : s.state ≠ .dataBody) (verb line : Bytes) :
    Answered s (handleRcptToState cfg s verb line) := by
  rw [handleRcptToState]
  split
  · exact handleRcpt_answered hstate line
  · split
    · exact ⟨rfl, rfl, rfl, rfl, rfl, id, _, Or.inr (Or.inr rfl)⟩
    · exact errorReply_answered hstate _

/-- A command is answered, or ignored while the reply to DATA is being written. -/
theorem dispatchCommand_cases (hstate : s.state ≠ .dataBody) (line : Bytes) :
    dispatchCommand cfg s line = (true, s) ∨
    ∃ s', dispatchCommand cfg s line = (false, s') ∧ Answered s s' := by
  rw [dispatchCommand]
  split
  · exact Or.inr ⟨_, rfl, rfl, rfl, rfl, rfl, rfl, id, _, Or.inr (Or.inl rfl)⟩
  · split
    · exact Or.inr ⟨_, rfl, .resume _ rfl rfl rfl rfl rfl (fun _ => rfl) nofun⟩
    · split
      · exact Or.inr ⟨_, rfl, .resume _ rfl rfl rfl rfl rfl id hstate⟩
      · split
        · exact Or.inr ⟨_, rfl, handleEhlo_answered hstate _ line⟩
        · exact Or.inr ⟨_, rfl, handleReady_answered hstate _ line⟩
        · refine Or.inr ⟨_, rfl, ?_⟩
          rw [handleMailFromState]
          split
          · exact errorReply_answered hstate _
          · exact handleRcpt_answered hstate line
        · exact Or.inr ⟨_, rfl, handleRcptToState_answered hstate _ line⟩
        · exact Or.inl rfl
        · exact Or.inr ⟨_, rfl, errorReply_answered hstate _⟩

end Commands

/-! ## The phases of a session -/

/-- The observer is where the session is. -/
def Settled (s : Session) (mode : Mode) : Prop :=
  (s.state = .dataBody ∧ mode = .body s.msg.data) ∨
  (s.state ≠ .dataBody ∧ mode = .commands ∧ s.msg.data = [])

/-- A reply behind which the session closes, or none. -/
def OnlyCloses (s : Session) : Prop := ∀ reply next, s.writing = some (reply, next) → next = .close

/-- What a session that is not closed waits for. -/
inductive Phase (s : Session) (mode : Mode) : Prop
  | greeting (reply : Bytes) (hstate : s.state = .greeting) (hdata : s.msg.data = [])
      (hmode : mode = .commands) (hwriting : s.writing = some (reply, .greeted))
      (hworking : s.working = none) (hwaiting : s.waiting = false) (hpumping : s.pumping = false)
  | lines (hsettled : Settled s mode) (hwriting : OnlyCloses s) (hworking : s.working = none)
      (hwaiting : s.waiting = false)
  | reply (reply : Bytes) (hsettled : Settled s mode)
      (hwriting : s.writing = some (reply, .resume)) (hworking : s.working = none)
      (hwaiting : s.waiting = true) (hpumping : s.pumping = false)
  | toBody (reply : Bytes) (hdata : s.msg.data = []) (hmode : mode = .commands)
      (hwriting : s.writing = some (reply, .toBody)) (hworking : s.working = none)
      (hwaiting : s.waiting = true) (hpumping : s.pumping = false)
  | ended (reply : Bytes) (next : Next) (hnext : next = .reset ∨ next = .delivered)
      (hmode : mode = .commands) (hwriting : s.writing = some (reply, next))
      (hworking : s.working = none) (hwaiting : s.waiting = true) (hpumping : s.pumping = false)
  | working (hmode : mode = .commands) (hwriting : OnlyCloses s) (hwaiting : s.waiting = true)
      (hpumping : s.pumping = false)

/-- The invariant of a session. -/
def Inv (s : Session) : Prop :=
  (s.closed = true → s.pumping = false) ∧
  ∃ mode, Watched s.log mode ∧ (s.closed = false → Phase s mode)

/-- The line that the next turn takes keeps the message within the limit. -/
def fits (cfg : Config) (s : Session) : Event → Bool
  | .turn =>
    match s.state, breakOn [lf] s.buf with
    | .dataBody, some (line, _) => stripCr line = [46] ||
        (s.msg.data ++ unstuff (stripCr line) ++ crlf).length ≤ cfg.maxMsg
    | _, _ => true
  | _ => true

def Fits (cfg : Config) (s : Session) (e : Event) : Prop := fits cfg s e = true

theorem Fits.line {cfg : Config} {s : Session} (h : Fits cfg s .turn) {line rest : Bytes}
    (hline : breakOn [lf] s.buf = some (line, rest)) (hstate : s.state = .dataBody)
    (hne : stripCr line ≠ [46]) :
    (s.msg.data ++ unstuff (stripCr line) ++ crlf).length ≤ cfg.maxMsg := by
  rw [Fits, fits, hstate, hline] at h
  simpa [hne] using h

def Step (cfg : Config) (s : Session) (e : Event) (s' : Session) : Prop := step cfg s e = some s'

section Steps

variable {cfg : Config} {s s' : Session} {mode : Mode}

/-- A line of a session that takes lines. -/
theorem dispatchLine_phase {line : Bytes} (hlog : Watched s.log mode) (hsettled : Settled s mode)
    (hwriting : OnlyCloses s) (hworking : s.working = none) (hwaiting : s.waiting = true)
    (hfits : s.state = .dataBody → line ≠ [46] →
      (s.msg.data ++ unstuff line ++ crlf).length ≤ cfg.maxMsg) {keep : Bool}
    (h : dispatchLine cfg s line = (keep, s')) :
    s'.closed = s.closed ∧ ∃ mode', Watched s'.log mode' ∧
      (keep = true → Phase { s' with waiting := false } mode') ∧
      (keep = false → Phase { s' with pumping := false } mode') := by
  rw [dispatchLine] at h
  rcases hsettled with ⟨hstate, rfl⟩ | ⟨hstate, rfl, hdata⟩
  · rw [if_pos hstate, handleDataBody] at h
    split at h
    · split at h
      · cases h
        refine ⟨rfl, .commands, hlog.snoc rfl, nofun, fun _ => ?_⟩
        exact .ended _ _ (Or.inl rfl) rfl rfl hworking hwaiting rfl
      · cases h
        refine ⟨rfl, .commands, hlog.snoc (if_pos rfl), nofun, fun _ => ?_⟩
        exact .working rfl hwriting hwaiting rfl
    · rename_i hline
      have hfit := hfits hstate hline
      dsimp only at h
      rw [if_neg (Nat.not_lt.mpr hfit)] at h
      cases h
      refine ⟨rfl, _, hlog.snoc rfl, fun _ => ?_, nofun⟩
      refine .lines (Or.inl ⟨hstate, ?_⟩) hwriting hworking rfl
      rw [List.append_assoc]
  · rw [if_neg hstate] at h
    have hlogged : Watched (s.log ++ [.command line]) .commands := hlog.snoc rfl
    have hstate1 : { s with log := s.log ++ [Obs.command line] }.state ≠ .dataBody := hstate
    rcases dispatchCommand_cases hstate1 line with hsame | ⟨s1, hs1, hans⟩
    · rw [hsame] at h
      cases h
      refine ⟨rfl, .commands, hlogged, fun _ => ?_, nofun⟩
      exact .lines (Or.inr ⟨hstate, rfl, hdata⟩) hwriting hworking rfl
    · rw [hs1] at h
      cases h
      refine ⟨hans.closed, .commands, by rw [hans.log]; exact hlogged, nofun, fun _ => ?_⟩
      have hworking' := hans.working.trans hworking
      have hwaiting' := hans.waiting.trans hwaiting
      obtain ⟨reply, ⟨hreply, hstate'⟩ | hreply | hreply⟩ := hans.writing
      · exact .reply reply (Or.inr ⟨hstate', rfl, hans.data hdata⟩) hreply hworking' hwaiting' rfl
      · refine .working rfl ?_ hwaiting' rfl
        intro r next hr
        rw [hreply] at hr
        cases hr
        rfl
      · exact .toBody reply (hans.data hdata) rfl hreply hworking' hwaiting' rfl

/-- Only a session that takes lines is in the loop. -/
theorem Phase.of_pumping (h : Phase s mode) (hpumping : s.pumping = true) :
    Settled s mode ∧ OnlyCloses s ∧ s.working = none := by
  cases h with
  | lines hsettled hwriting hworking _ => exact ⟨hsettled, hwriting, hworking⟩
  | greeting _ _ _ _ _ _ _ hnot => exact absurd (hpumping.symm.trans hnot) nofun
  | reply _ _ _ _ _ hnot => exact absurd (hpumping.symm.trans hnot) nofun
  | toBody _ _ _ _ _ _ hnot => exact absurd (hpumping.symm.trans hnot) nofun
  | ended _ _ _ _ _ _ _ hnot => exact absurd (hpumping.symm.trans hnot) nofun
  | working _ _ _ hnot => exact absurd (hpumping.symm.trans hnot) nofun

theorem Inv.of_open (hclosed : s.closed = false) (hlog : Watched s.log mode)
    (hphase : Phase s mode) : Inv s :=
  ⟨fun h => absurd (h.symm.trans hclosed) nofun, mode, hlog, fun _ => hphase⟩

theorem Inv.pumpTurn (h : Inv s) (hpumping : s.pumping = true) (hfits : Fits cfg s .turn) :
    Inv (pumpTurn cfg s) := by
  obtain ⟨hnot, mode, hlog, hphase⟩ := h
  have hclosed : s.closed = false := by
    cases hc : s.closed with
    | false => rfl
    | true => exact absurd (hpumping.symm.trans (hnot hc)) nofun
  have hwaiting : s.waiting = false := by
    cases hphase hclosed with
    | lines _ _ _ hwaiting => exact hwaiting
    | greeting _ _ _ _ _ _ hwaiting _ => exact hwaiting
    | reply _ _ _ _ _ hnot => exact absurd (hpumping.symm.trans hnot) nofun
    | toBody _ _ _ _ _ _ hnot => exact absurd (hpumping.symm.trans hnot) nofun
    | ended _ _ _ _ _ _ _ hnot => exact absurd (hpumping.symm.trans hnot) nofun
    | working _ _ _ hnot => exact absurd (hpumping.symm.trans hnot) nofun
  obtain ⟨hsettled, hwriting, hworking⟩ := (hphase hclosed).of_pumping hpumping
  rw [Smtp.pumpTurn]
  split
  · dsimp only
    split
    · refine Inv.of_open hclosed hlog (.lines hsettled ?_ hworking hwaiting)
      intro reply next hr
      cases hr
      rfl
    · exact Inv.of_open hclosed hlog (.lines hsettled hwriting hworking hwaiting)
  · rename_i line rest hline
    split
    · rename_i s1 hs1
      obtain ⟨hclosed1, mode1, hlog1, hkeep, -⟩ :=
        dispatchLine_phase (s := { s with buf := rest, waiting := true }) hlog hsettled hwriting
          hworking rfl (fun hstate hne => hfits.line hline hstate hne) hs1
      exact Inv.of_open (hclosed1.trans hclosed) hlog1 (hkeep rfl)
    · rename_i s1 hs1
      obtain ⟨hclosed1, mode1, hlog1, -, hstop⟩ :=
        dispatchLine_phase (s := { s with buf := rest, waiting := true }) hlog hsettled hwriting
          hworking rfl (fun hstate hne => hfits.line hline hstate hne) hs1
      exact Inv.of_open (hclosed1.trans hclosed) hlog1 (hstop rfl)

theorem Inv.closeSession (hlog : Watched s.log mode) (hpumping : s.pumping = false) :
    Inv (closeSession s) :=
  ⟨fun _ => hpumping, mode, hlog, nofun⟩

/-- More bytes in the buffer do not change the phase. -/
theorem Phase.buf (h : Phase s mode) (buf : Bytes) : Phase { s with buf := buf } mode := by
  cases h with
  | greeting r h1 h2 h3 h4 h5 h6 h7 => exact .greeting r h1 h2 h3 h4 h5 h6 h7
  | lines h1 h2 h3 h4 => exact .lines h1 h2 h3 h4
  | reply r h1 h2 h3 h4 h5 => exact .reply r h1 h2 h3 h4 h5
  | toBody r h1 h2 h3 h4 h5 h6 => exact .toBody r h1 h2 h3 h4 h5 h6
  | ended r n h1 h2 h3 h4 h5 h6 => exact .ended r n h1 h2 h3 h4 h5 h6
  | working h1 h2 h3 h4 => exact .working h1 h2 h3 h4

theorem Inv.onData (h : Inv s) (hclosed : s.closed = false) (hpumping : s.pumping = false)
    (hstate : s.state ≠ .greeting) (bytes : Bytes) : Inv (onData cfg s bytes) := by
  obtain ⟨-, mode, hlog, hphase⟩ := h
  rw [Smtp.onData]
  split
  · exact Inv.closeSession hlog hpumping
  · dsimp only
    split
    · split
      · exact Inv.closeSession hlog hpumping
      · exact Inv.of_open hclosed hlog ((hphase hclosed).buf _)
    · rename_i hwaiting
      refine Inv.of_open hclosed hlog ?_
      cases hphase hclosed with
      | greeting _ h _ _ _ _ _ _ => exact absurd h hstate
      | lines h1 h2 h3 h4 => exact .lines h1 h2 h3 h4
      | reply _ _ _ _ h _ => exact absurd h hwaiting
      | toBody _ _ _ _ _ h _ => exact absurd h hwaiting
      | ended _ _ _ _ _ _ h _ => exact absurd h hwaiting
      | working _ _ h _ => exact absurd h hwaiting

/-- A reply has been written. -/
theorem Inv.afterWrite {reply : Bytes} {next : Next} (h : Inv s) (hclosed : s.closed = false)
    (hpumping : s.pumping = false) (hwriting : s.writing = some (reply, next)) :
    Inv (afterWrite { s with writing := none } next) := by
  obtain ⟨-, mode, hlog, hphase⟩ := h
  cases hphase hclosed with
  | greeting r hstate hdata hmode hw hworking hwaiting _ =>
    rw [hw] at hwriting
    cases hwriting
    exact Inv.of_open hclosed hlog (.lines (Or.inr ⟨nofun, hmode, hdata⟩) nofun hworking hwaiting)
  | lines _ hw _ _ =>
    obtain rfl := hw reply next hwriting
    exact Inv.closeSession hlog hpumping
  | reply r hsettled hw hworking _ _ =>
    rw [hw] at hwriting
    cases hwriting
    exact Inv.of_open hclosed hlog (.lines hsettled nofun hworking rfl)
  | toBody r hdata hmode hw hworking _ _ =>
    rw [hw] at hwriting
    cases hwriting
    subst hmode
    refine Inv.of_open hclosed (hlog.snoc rfl) (.lines (Or.inl ⟨rfl, ?_⟩) nofun hworking rfl)
    exact congrArg Mode.body hdata.symm
  | ended r next' hnext hmode hw hworking _ _ =>
    rw [hw] at hwriting
    cases hwriting
    subst hmode
    rcases hnext with rfl | rfl
    · exact Inv.of_open hclosed hlog (.lines (Or.inr ⟨nofun, rfl, rfl⟩) nofun hworking rfl)
    · exact Inv.of_open hclosed hlog (.lines (Or.inr ⟨nofun, rfl, rfl⟩) nofun hworking rfl)
  | working _ hw _ _ =>
    obtain rfl := hw reply next hwriting
    exact Inv.closeSession hlog hpumping

/-- A reply could not be written. -/
theorem Inv.afterFailure {reply : Bytes} {next : Next} (h : Inv s) (hclosed : s.closed = false)
    (hpumping : s.pumping = false) (hwriting : s.writing = some (reply, next)) :
    Inv (afterFailure { s with writing := none } next) := by
  obtain ⟨-, mode, hlog, hphase⟩ := h
  by_cases hnext : next = .delivered
  · subst hnext
    cases hphase hclosed with
    | ended _ _ _ hmode _ _ hwaiting _ =>
      exact Inv.of_open hclosed hlog (.working hmode nofun hwaiting hpumping)
    | greeting _ _ _ _ hw _ _ _ => exact absurd (hw.symm.trans hwriting) nofun
    | lines _ hw _ _ => exact absurd (hw reply _ hwriting) nofun
    | reply _ _ hw _ _ _ => exact absurd (hw.symm.trans hwriting) nofun
    | toBody _ _ _ hw _ _ _ => exact absurd (hw.symm.trans hwriting) nofun
    | working _ hw _ _ => exact absurd (hw reply _ hwriting) nofun
  · have hclose : Smtp.afterFailure { s with writing := none } next =
        Smtp.closeSession { s with writing := none } := by
      cases next <;> first | rfl | exact absurd rfl hnext
    rw [hclose]
    exact Inv.closeSession (s := { s with writing := none }) hlog hpumping

/-- A worker is done with a message. -/
theorem Inv.workerDone {m : Mail} (h : Inv s) (hpumping : s.pumping = false)
    (hworking : s.working = some m) (accepted : Bool)
    (hs : step cfg s (.workerDone accepted) = some s') : Inv s' := by
  obtain ⟨hnot, mode, hlog, hphase⟩ := h
  rw [step, hpumping, if_neg Bool.false_ne_true, hworking] at hs
  cases hclosed : s.closed with
  | true =>
    dsimp only at hs
    rw [if_pos hclosed] at hs
    cases hs
    exact ⟨fun _ => rfl, mode, hlog, fun h => absurd (hclosed.symm.trans h) nofun⟩
  | false =>
    dsimp only at hs
    rw [hclosed, if_neg Bool.false_ne_true] at hs
    cases hs
    cases hphase hclosed with
    | working hmode _ hwaiting _ =>
      exact Inv.of_open rfl hlog (.ended _ _ (Or.inr rfl) hmode rfl rfl hwaiting rfl)
    | greeting _ _ _ _ _ hno _ _ => exact absurd (hno.symm.trans hworking) nofun
    | lines _ _ hno _ => exact absurd (hno.symm.trans hworking) nofun
    | reply _ _ _ hno _ _ => exact absurd (hno.symm.trans hworking) nofun
    | toBody _ _ _ _ hno _ _ => exact absurd (hno.symm.trans hworking) nofun
    | ended _ _ _ _ _ hno _ _ => exact absurd (hno.symm.trans hworking) nofun

/-- Every step whose line fits keeps the invariant. -/
theorem Inv.step {e : Event} (h : Inv s) (hs : Step cfg s e s') (hfits : Fits cfg s e) :
    Inv s' := by
  have hstep : Smtp.step cfg s e = some s' := hs
  cases e with
  | recv bytes =>
    rw [Smtp.step] at hstep
    split at hstep
    · cases hstep
    · rename_i hguard
      cases hstep
      simp only [Bool.or_eq_true, decide_eq_true_eq, not_or, Bool.not_eq_true] at hguard
      exact h.onData hguard.1.1 hguard.1.2 hguard.2 bytes
  | turn =>
    rw [Smtp.step] at hstep
    split at hstep
    · rename_i hpumping
      cases hstep
      exact h.pumpTurn hpumping hfits
    · cases hstep
  | written ok =>
    rw [Smtp.step] at hstep
    split at hstep
    · cases hstep
    · rename_i hguard
      simp only [Bool.or_eq_true, not_or, Bool.not_eq_true] at hguard
      split at hstep
      · cases hstep
      · rename_i reply next hwriting
        cases ok with
        | true =>
          cases hstep
          exact h.afterWrite hguard.1 hguard.2 hwriting
        | false =>
          cases hstep
          exact h.afterFailure hguard.1 hguard.2 hwriting
  | workerDone accepted =>
    have hcopy := hstep
    rw [Smtp.step] at hstep
    split at hstep
    · cases hstep
    · rename_i hpumping
      split at hstep
      · cases hstep
      · rename_i m hworking
        exact h.workerDone (by simpa using hpumping) hworking accepted hcopy

theorem Inv.start (cfg : Config) (submission : Bool) (ip : Bytes) :
    Inv (Session.start cfg submission ip) :=
  Inv.of_open rfl rfl (.greeting _ rfl rfl rfl rfl rfl rfl rfl)

/-- In a run in which no line takes a message over the limit, commands and message
text are kept apart. -/
theorem session_separated (cfg : Config) (submission : Bool) (ip : Bytes)
    (h : RunWhere (Step cfg) (Fits cfg) (Session.start cfg submission ip) s) :
    Separated s.log := by
  have hinv : Inv s := RunWhere.keeps (I := Inv)
    (fun _ e _ hs hfits hi => hi.step (e := e) hs hfits) h (Inv.start cfg submission ip)
  obtain ⟨-, mode, hlog, -⟩ := hinv
  exact hlog.separated

/-- A session that takes lines outside a message takes the next one as a command. -/
theorem turn_command (cfg : Config) (hpumping : s.pumping = true) (hstate : s.state ≠ .dataBody)
    {line rest : Bytes} (hline : breakOn [lf] s.buf = some (line, rest)) :
    ∃ s', Smtp.step cfg s .turn = some s' ∧ s'.log = s.log ++ [.command (stripCr line)] := by
  rw [Smtp.step, if_pos hpumping, Smtp.pumpTurn, hline]
  refine ⟨_, rfl, ?_⟩
  dsimp only
  rw [dispatchLine, if_neg hstate]
  rcases dispatchCommand_cases (s := { s with
    buf := rest, waiting := true, log := s.log ++ [.command (stripCr line)] }) hstate
    (stripCr line) with hsame | ⟨s1, hs1, hans⟩
  · rw [hsame]
  · rw [hs1]
    exact hans.log

/-- A message that grows over the limit in the middle: the line behind the one that
did it is taken as a command. -/
theorem not_separated_of_overflow (h : Inv s) (hpumping : s.pumping = true)
    (hstate : s.state = .dataBody) {line rest next rest' : Bytes}
    (hline : breakOn [lf] s.buf = some (line, rest)) (hne : stripCr line ≠ [46])
    (hover : cfg.maxMsg < (s.msg.data ++ unstuff (stripCr line) ++ crlf).length)
    (hnext : breakOn [lf] rest = some (next, rest')) :
    ∃ s', steps cfg s [.turn, .written true, .turn] = some s' ∧ ¬ Separated s'.log := by
  obtain ⟨hnot, mode, hlog, hphase⟩ := h
  have hclosed : s.closed = false := by
    cases hc : s.closed with
    | false => rfl
    | true => exact absurd (hpumping.symm.trans (hnot hc)) nofun
  obtain ⟨hsettled, -, -⟩ := (hphase hclosed).of_pumping hpumping
  obtain rfl : mode = .body s.msg.data := by
    rcases hsettled with ⟨-, hmode⟩ | ⟨hother, -, -⟩
    · exact hmode
    · exact absurd hstate hother
  -- The reply to the large message is written, and the session is back among commands.
  obtain ⟨s1, hs1, hlog1, hbuf1, hclosed1, hpumping1, reply, hwriting1⟩ :
      ∃ s1, Smtp.step cfg s .turn = some s1 ∧ s1.log = s.log ++ [.text (stripCr line)] ∧
        s1.buf = rest ∧ s1.closed = false ∧ s1.pumping = false ∧
        ∃ reply, s1.writing = some (reply, .reset) := by
    rw [Smtp.step, if_pos hpumping, Smtp.pumpTurn, hline]
    dsimp only
    rw [dispatchLine, if_pos hstate, handleDataBody, if_neg hne]
    dsimp only
    rw [if_pos hover]
    exact ⟨_, rfl, rfl, rfl, hclosed, rfl, _, rfl⟩
  have hs2 : Smtp.step cfg s1 (.written true) =
      some (Smtp.resume (resetEnvelope { s1 with writing := none })) := by
    rw [Smtp.step, hclosed1, hpumping1, hwriting1]
    rfl
  obtain ⟨s3, hs3, hlog3⟩ := turn_command cfg
    (s := Smtp.resume (resetEnvelope { s1 with writing := none })) rfl nofun
    (show breakOn [lf] s1.buf = _ by rw [hbuf1]; exact hnext)
  refine ⟨s3, ?_, ?_⟩
  · rw [steps, List.foldlM_cons, hs1]
    exact (congrArg (· >>= fun t => [Event.turn].foldlM (Smtp.step cfg) t) hs2).trans
      ((congrArg (· >>= pure) hs3).trans rfl)
  · intro hsep
    obtain ⟨a, b, hab, hdots⟩ := exists_start hlog
    have hlog3' : s3.log = a ++ .start :: ((b ++ [.text (stripCr line)]) ++
        .command (stripCr next) :: []) := by
      rw [hlog3]
      show s1.log ++ _ = _
      rw [hlog1, hab]
      simp
    obtain ⟨handed, hmem⟩ := hsep.noCommand _ _ _ _ hlog3'
    rw [List.mem_append, List.mem_singleton] at hmem
    rcases hmem with hmem | hmem
    · exact hdots handed hmem
    · cases hmem

/-- Steps that all fit. -/
def fittingSteps (cfg : Config) (s : Session) (events : List Event) : Option Session :=
  events.foldlM (fun s e => if fits cfg s e then step cfg s e else none) s

theorem runWhere_of_fittingSteps {events : List Event}
    (h : fittingSteps cfg s events = some s') : RunWhere (Step cfg) (Fits cfg) s s' := by
  induction events generalizing s with
  | nil =>
    cases h
    exact .refl
  | cons e events ih =>
    rw [fittingSteps, List.foldlM_cons, Option.bind_eq_bind, Option.bind_eq_some_iff] at h
    obtain ⟨s1, hs1, hrest⟩ := h
    split at hs1
    · rename_i hfits
      exact Relation.ReflTransGen.head ⟨e, hs1, hfits⟩ (ih hrest)
    · cases hs1

theorem run_of_steps {events : List Event} (h : steps cfg s events = some s') :
    Run (Step cfg) s s' := by
  induction events generalizing s with
  | nil =>
    cases h
    exact .refl
  | cons e events ih =>
    rw [steps, List.foldlM_cons, Option.bind_eq_bind, Option.bind_eq_some_iff] at h
    obtain ⟨s1, hs1, hrest⟩ := h
    exact Relation.ReflTransGen.head ⟨e, hs1, trivial⟩ (ih hrest)

end Steps

/-! ## A session -/

/-- A server that takes messages of at most this size. -/
def smallConfig (maxMsg : Nat) : Config :=
  ⟨ascii "a", maxMsg, 10, 10, false, fun _ => true, fun _ => false, false, fun _ => none⟩

/-- The commands up to the reply to DATA, sent in one piece. -/
def dialogue : List Event :=
  [.written true, .recv (ascii "EHLO a\r\nMAIL FROM:<a@b>\r\nRCPT TO:<c@d>\r\nDATA\r\n"),
    .turn, .written true, .turn, .written true, .turn, .written true, .turn, .written true, .turn]

/-- A message of one line is handed to a worker. -/
theorem session_separated_hi : ∃ s : Session, Separated s.log ∧
    s.working.map Mail.data = some (ascii "hi\r\n") := by
  have hsome : (fittingSteps (smallConfig 4) (Session.start (smallConfig 4) false [])
      (dialogue ++ [.recv (ascii "hi\r\n.\r\n"), .turn, .turn])).isSome = true := by
    decide +kernel
  obtain ⟨s, hs⟩ := Option.isSome_iff_exists.mp hsome
  refine ⟨s, session_separated (smallConfig 4) false [] (runWhere_of_fittingSteps hs), ?_⟩
  have hworking : (fittingSteps (smallConfig 4) (Session.start (smallConfig 4) false [])
      (dialogue ++ [.recv (ascii "hi\r\n.\r\n"), .turn, .turn])).bind
      (fun s => s.working.map Mail.data) = some (ascii "hi\r\n") := by
    decide +kernel
  rw [hs] at hworking
  exact hworking

/-- A message over the limit: the line behind the long one closes the session. -/
theorem session_smuggles : ∃ s,
    Run (Step (smallConfig 4)) (Session.start (smallConfig 4) false []) s ∧ ¬ Separated s.log := by
  have hlog : (steps (smallConfig 4) (Session.start (smallConfig 4) false [])
      (dialogue ++ [.recv (ascii "hello\r\nQUIT\r\n.\r\n"), .turn, .written true, .turn])).map
      Session.log = some [.command (ascii "EHLO a"), .command (ascii "MAIL FROM:<a@b>"),
        .command (ascii "RCPT TO:<c@d>"), .command (ascii "DATA"), .start,
        .text (ascii "hello"), .command (ascii "QUIT")] := by
    decide +kernel
  obtain ⟨s, hs, hlog⟩ := Option.map_eq_some_iff.mp hlog
  refine ⟨s, run_of_steps hs, ?_⟩
  intro hsep
  obtain ⟨handed, hmem⟩ := hsep.noCommand [.command (ascii "EHLO a"),
    .command (ascii "MAIL FROM:<a@b>"), .command (ascii "RCPT TO:<c@d>"), .command (ascii "DATA")]
    [.text (ascii "hello")] [] (ascii "QUIT") hlog
  rw [List.mem_singleton] at hmem
  cases hmem

end Smtp

end Look
