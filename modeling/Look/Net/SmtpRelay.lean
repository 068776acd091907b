/-
No session relays mail for strangers.

The recipients of a message that a worker gets are those, and only those, that
`validate_rcpt` has accepted since the MAIL command that opened the envelope.  Each of
them is in a local domain, unless the client had authenticated before that MAIL
command.  This holds in every run, also in one in which a message grows too large and
its rest is taken as commands.

`history` is not part of the source.  It records, in order, what the session has
granted to its client.
-/
import Mathlib.Data.List.DropRight
import Look.Net.SmtpSeparation

namespace Look

namespace Smtp

open Http (Bytes lf isBlank)

/-! ## Local domains -/

def toLower (b : UInt8) : UInt8 := if 65 ≤ b ∧ b ≤ 90 then b + 32 else b

/-- `smtp_norm_domain`. -/
def smtpNormDomain (d : Bytes) : Bytes :=
  ((d.dropWhile isBlank).rdropWhile fun b => isBlank b || b == 46).map toLower

/-- `is_local_domain`, for the list of domains in the environment.  An empty name
matches no entry, so that an empty list has no local domains. -/
def isLocalDomain (domains addrDomain : Bytes) : Bool :=
  let want := smtpNormDomain addrDomain
  !want.isEmpty && (domains.splitOn 44).any fun d => smtpNormDomain d == want

/-! ## What a session grants -/

/-- The client is authenticated, an envelope is opened, `validate_rcpt` accepts a
recipient, the envelope is dropped. -/
inductive Note where
  | auth
  | mail
  | rcpt (addr : Bytes)
  | reset
deriving DecidableEq

def rcptNotes (cfg : Config) (s : Session) (verb line : Bytes) : List Note :=
  let addr := (smtpExtractAddr line).getD []
  if verb = ascii "RCPT" ∧ validateRcpt cfg s addr = none then [.rcpt addr] else []

/-- What a command is granted in this session. -/
def commandNotes (cfg : Config) (s : Session) (line : Bytes) : List Note :=
  let verb := smtpVerb line
  if verb = ascii "RSET" then [.reset]
  else
    match s.state with
    | .ready =>
      if verb = ascii "AUTH" then
        if !s.authOk && (handleAuth cfg s line).authOk then [.auth] else []
      else if verb = ascii "MAIL" then
        if (handleMail cfg s line).state = .mailFrom then [.mail] else []
      else []
    | .mailFrom => rcptNotes cfg s verb line
    | .rcptTo => rcptNotes cfg s verb line
    | _ => []

/-- What one step grants. -/
def notes (cfg : Config) (s : Session) : Event → List Note
  | .turn =>
    match breakOn [lf] s.buf with
    | none => []
    | some (line, rest) =>
      if s.state = .dataBody then []
      else
        let line := stripCr line
        commandNotes cfg
          { s with buf := rest, waiting := true, log := s.log ++ [.command line] } line
  | .written ok =>
    match s.writing with
    | some (_, .reset) => if ok then [.reset] else []
    | some (_, .delivered) => [.reset]
    | _ => []
  | .recv _ => []
  | .workerDone _ => []

/-- What a sequence of steps grants. -/
def history (cfg : Config) (s : Session) : List Event → List Note
  | [] => []
  | e :: events =>
    match step cfg s e with
    | none => []
    | some s' => notes cfg s e ++ history cfg s' events

/-! ## What a command can do -/

/-- A reply behind which the session goes on or closes. -/
def Replies (s : Session) : Prop :=
  ∃ reply, s.writing = some (reply, .resume) ∨ s.writing = some (reply, .close)

/-- The effect of a command on the envelope, with what it grants. -/
inductive Effect (cfg : Config) (s : Session) : List Note → Session → Prop
  | plain {s' : Session} (hport : s'.submission = s.submission) (hauth : s'.authOk = s.authOk)
      (hrcpt : s'.msg.rcptTo = s.msg.rcptTo)
      (hstate : s'.state = s.state ∨ s.state = .ehlo ∧ s'.state = .ready) (hreply : Replies s') :
      Effect cfg s [] s'
  | auth {s' : Session} (hport : s'.submission = s.submission)
      (hrcpt : s'.msg.rcptTo = s.msg.rcptTo) (hbefore : s.state = .ready)
      (hstate : s'.state = .ready) (hreply : Replies s') : Effect cfg s [.auth] s'
  | mail {s' : Session} (hport : s'.submission = s.submission) (hauth : s'.authOk = s.authOk)
      (hrcpt : s'.msg.rcptTo = s.msg.rcptTo) (hbefore : s.state = .ready)
      (hstate : s'.state = .mailFrom) (hallowed : s.submission = true → s.authOk = true)
      (hreply : Replies s') : Effect cfg s [.mail] s'
  | rcpt {s' : Session} (addr : Bytes) (hport : s'.submission = s.submission)
      (hauth : s'.authOk = s.authOk) (hrcpt : s'.msg.rcptTo = s.msg.rcptTo ++ [addr])
      (hbefore : s.state = .mailFrom ∨ s.state = .rcptTo) (hstate : s'.state = .rcptTo)
      (hvalid : validateRcpt cfg s addr = none) (hreply : Replies s') :
      Effect cfg s [.rcpt addr] s'
  | data {s' : Session} (reply : Bytes) (hport : s'.submission = s.submission)
      (hauth : s'.authOk = s.authOk) (hrcpt : s'.msg.rcptTo = s.msg.rcptTo)
      (hbefore : s.state = .rcptTo) (hstate : s'.state = .dataInit)
      (hwriting : s'.writing = some (reply, .toBody)) : Effect cfg s [] s'
  | reset {s' : Session} (hport : s'.submission = s.submission) (hauth : s'.authOk = s.authOk)
      (hrcpt : s'.msg.rcptTo = []) (hstate : s'.state = .ready) (hreply : Replies s') :
      Effect cfg s [.reset] s'

section Commands

variable {cfg : Config} {s : Session}

theorem replies_sendReply (s : Session) (reply : Bytes) : Replies (sendReply s reply .resume) :=
  ⟨reply, Or.inl rfl⟩

theorem errorReply_authOk (reply : Bytes) : (errorReply cfg s reply).authOk = s.authOk := by
  rw [errorReply]
  dsimp only
  split <;> rfl

theorem errorReply_state (reply : Bytes) : (errorReply cfg s reply).state = s.state := by
  rw [errorReply]
  dsimp only
  split <;> rfl

theorem errorReply_effect (reply : Bytes) : Effect cfg s [] (errorReply cfg s reply) := by
  rw [errorReply]
  dsimp only
  split
  · exact .plain rfl rfl rfl (Or.inl rfl) ⟨_, Or.inr rfl⟩
  · exact .plain rfl rfl rfl (Or.inl rfl) (replies_sendReply _ reply)

theorem handleEhlo_effect (hstate : s.state = .ehlo ∨ s.state = .ready) (verb line : Bytes) :
    Effect cfg s [] (handleEhlo cfg s verb line) := by
  rw [handleEhlo]
  split
  · exact errorReply_effect _
  · refine .plain rfl rfl rfl ?_ (replies_sendReply _ _)
    rcases hstate with hstate | hstate
    · exact Or.inr ⟨hstate, rfl⟩
    · exact Or.inl hstate.symm

/-- AUTH is refused, or authenticates a client that was not authenticated. -/
theorem handleAuth_cases (cfg : Config) (s : Session) (line : Bytes) :
    (∃ reply, handleAuth cfg s line = errorReply cfg s reply) ∨
    s.authOk = false ∧ ∃ reply, handleAuth cfg s line =
      sendReply { s with authOk := true, msg := { s.msg with authenticated := true } } reply
        .resume := by
  rw [handleAuth]
  split
  · exact Or.inl ⟨_, rfl⟩
  · split
    · exact Or.inl ⟨_, rfl⟩
    · rename_i hauth
      split
      · exact Or.inl ⟨_, rfl⟩
      · split
        · exact Or.inl ⟨_, rfl⟩
        · dsimp only
          split
          · exact Or.inl ⟨_, rfl⟩
          · split
            · exact Or.inr ⟨Bool.not_eq_true _ ▸ hauth, _, rfl⟩
            · exact Or.inl ⟨_, rfl⟩

theorem handleAuth_effect (hstate : s.state = .ready) (line : Bytes) :
    Effect cfg s (if !s.authOk && (handleAuth cfg s line).authOk then [.auth] else [])
      (handleAuth cfg s line) := by
  rcases handleAuth_cases cfg s line with ⟨reply, h⟩ | ⟨hauth, reply, h⟩
  · rw [h, errorReply_authOk, Bool.not_and_self, if_neg Bool.false_ne_true]
    exact errorReply_effect reply
  · rw [h, hauth]
    exact .auth rfl rfl hstate hstate (replies_sendReply _ reply)

/-- MAIL is refused, or opens an envelope; on a port for submission only for a client
that is authenticated. -/
theorem handleMail_cases (cfg : Config) (s : Session) (line : Bytes) :
    (∃ reply, handleMail cfg s line = errorReply cfg s reply) ∨
    (s.submission = true → s.authOk = true) ∧ ∃ addr reply, handleMail cfg s line =
      sendReply { s with msg := { s.msg with mailFrom := addr }, state := .mailFrom } reply
        .resume := by
  rw [handleMail]
  split
  · exact Or.inl ⟨_, rfl⟩
  · split
    · exact Or.inl ⟨_, rfl⟩
    · split
      · exact Or.inl ⟨_, rfl⟩
      · rename_i hallowed
        split
        · exact Or.inl ⟨_, rfl⟩
        · rename_i addr _
          refine Or.inr ⟨?_, addr, _, rfl⟩
          intro hsub
          rw [hsub, Bool.true_and, Bool.not_eq_true', Bool.not_eq_false] at hallowed
          exact hallowed

theorem handleMail_effect (hstate : s.state = .ready) (line : Bytes) :
    Effect cfg s (if (handleMail cfg s line).state = .mailFrom then [.mail] else [])
      (handleMail cfg s line) := by
  rcases handleMail_cases cfg s line with ⟨reply, h⟩ | ⟨hallowed, addr, reply, h⟩
  · rw [h, errorReply_state, hstate, if_neg nofun]
    exact errorReply_effect reply
  · rw [h]
    exact .mail rfl rfl rfl hstate rfl hallowed (replies_sendReply _ reply)

theorem handleReady_effect (hstate : s.state = .ready) (line : Bytes)
    (hverb : smtpVerb line ≠ ascii "RSET") :
    Effect cfg s (commandNotes cfg s line) (handleReady cfg s (smtpVerb line) line) := by
  rw [commandNotes, handleReady, if_neg hverb, hstate]
  dsimp only
  by_cases hauth : smtpVerb line = ascii "AUTH"
  · have hother : smtpVerb line ≠ ascii "STARTTLS" := hauth ▸ by decide
    rw [if_pos hauth, if_pos hauth, if_neg hother]
    exact handleAuth_effect hstate line
  · rw [if_neg hauth, if_neg hauth]
    by_cases hmail : smtpVerb line = ascii "MAIL"
    · have hother : smtpVerb line ≠ ascii "STARTTLS" := hmail ▸ by decide
      rw [if_pos hmail, if_pos hmail, if_neg hother]
      exact handleMail_effect hstate line
    · rw [if_neg hmail, if_neg hmail]
      split
      · exact errorReply_effect _
      · split
        · exact handleEhlo_effect (Or.inr hstate) _ line
        · exact errorReply_effect _

theorem handleRcpt_effect (hstate : s.state = .mailFrom ∨ s.state = .rcptTo) {verb : Bytes}
    (hverb : verb = ascii "RCPT") (line : Bytes) :
    Effect cfg s (rcptNotes cfg s verb line) (handleRcpt cfg s line) := by
  rw [handleRcpt, rcptNotes]
  dsimp only
  cases hvalid : validateRcpt cfg s ((smtpExtractAddr line).getD []) with
  | some refusal =>
    rw [if_neg (fun h => by cases h.2)]
    exact errorReply_effect refusal
  | none =>
    rw [if_pos ⟨hverb, rfl⟩]
    exact .rcpt _ rfl rfl rfl hstate rfl hvalid (replies_sendReply _ _)

theorem rcptNotes_of_ne {verb : Bytes} (hverb : verb ≠ ascii "RCPT") (line : Bytes) :
    rcptNotes cfg s verb line = [] :=
  if_neg fun h => hverb h.1

theorem commandNotes_of_plain {line : Bytes}
    (h : smtpVerb line = ascii "QUIT" ∨ smtpVerb line = ascii "NOOP") :
    commandNotes cfg s line = [] := by
  rcases h with h | h
  · rw [commandNotes, h, if_neg (by decide)]
    cases s.state <;> rfl
  · rw [commandNotes, h, if_neg (by decide)]
    cases s.state <;> rfl

/-- A command that is answered has one of the effects. -/
theorem dispatchCommand_effect {s' : Session} (line : Bytes)
    (h : dispatchCommand cfg s line = (false, s')) :
    Effect cfg s (commandNotes cfg s line) s' := by
  rw [dispatchCommand] at h
  split at h
  · rename_i hquit
    cases h
    rw [commandNotes_of_plain (Or.inl hquit)]
    exact .plain rfl rfl rfl (Or.inl rfl) ⟨_, Or.inr rfl⟩
  · split at h
    · rename_i hrset
      cases h
      rw [commandNotes, if_pos hrset]
      exact .reset rfl rfl rfl rfl (replies_sendReply _ _)
    · rename_i hrset
      split at h
      · rename_i hnoop
        cases h
        rw [commandNotes_of_plain (Or.inr hnoop)]
        exact .plain rfl rfl rfl (Or.inl rfl) (replies_sendReply _ _)
      · split at h
        · rename_i hstate
          cases h
          rw [commandNotes, if_neg hrset, hstate]
          exact handleEhlo_effect (Or.inl hstate) _ line
        · rename_i hstate
          cases h
          exact handleReady_effect hstate line hrset
        · rename_i hstate
          cases h
          rw [commandNotes, if_neg hrset, hstate, handleMailFromState]
          dsimp only
          split
          · rename_i hverb
            rw [rcptNotes_of_ne hverb]
            exact errorReply_effect _
          · rename_i hverb
            exact handleRcpt_effect (Or.inl hstate) (not_not.mp hverb) line
        · rename_i hstate
          cases h
          rw [commandNotes, if_neg hrset, hstate, handleRcptToState]
          dsimp only
          split
          · rename_i hverb
            exact handleRcpt_effect (Or.inr hstate) hverb line
          · rename_i hverb
            rw [rcptNotes_of_ne hverb]
            split
            · exact .data _ rfl rfl rfl hstate rfl rfl
            · exact errorReply_effect _
        · cases h
        · rename_i hehlo hready hmail hrcpt hinit
          cases h
          have hnone : commandNotes cfg s line = [] := by
            rw [commandNotes, if_neg hrset]
            split
            · exact absurd ‹_› hready
            · exact absurd ‹_› hmail
            · exact absurd ‹_› hrcpt
            · rfl
          rw [hnone]
          exact errorReply_effect _

theorem commandNotes_of_ignored {s' : Session} {line : Bytes}
    (h : dispatchCommand cfg s line = (true, s')) : commandNotes cfg s line = [] := by
  rw [dispatchCommand] at h
  split at h
  · cases h
  · split at h
    · cases h
    · rename_i hrset
      split at h
      · cases h
      · split at h <;> cases h
        rename_i hstate
        rw [commandNotes, if_neg hrset, hstate]

end Commands

/-! ## The invariant -/

/-- The recipients are those accepted since an envelope was opened, and each of them
could be accepted. -/
def Envelope (cfg : Config) (submission : Bool) (notes : List Note) (rcptTo : List Bytes) : Prop :=
  ∃ before, notes = before ++ .mail :: rcptTo.map Note.rcpt ∧ rcptTo.length ≤ cfg.maxRcpt ∧
    (∀ addr ∈ rcptTo, .auth ∈ before ∨ cfg.isLocalDomain (behindLast 64 addr) = true) ∧
    (submission = true → .auth ∈ before)

/-- The envelope that belongs to a state. -/
def Tracks (cfg : Config) (notes : List Note) (s : Session) : Prop :=
  match s.state with
  | .mailFrom => Envelope cfg s.submission notes s.msg.rcptTo ∧ s.msg.rcptTo = []
  | .rcptTo => Envelope cfg s.submission notes s.msg.rcptTo ∧ s.msg.rcptTo ≠ []
  | .dataInit => Envelope cfg s.submission notes s.msg.rcptTo ∧ s.msg.rcptTo ≠ []
  | .dataBody => Envelope cfg s.submission notes s.msg.rcptTo ∧ s.msg.rcptTo ≠ []
  | _ => s.msg.rcptTo = []

/-- The invariant of a session and what it has granted: a worker has the envelope that
the session is in, and nothing changes the envelope while a reply or a worker is under
way. -/
structure Granted (cfg : Config) (submission : Bool) (notes : List Note) (s : Session) :
    Prop where
  port : s.submission = submission
  auth : s.authOk = true → .auth ∈ notes
  envelope : Tracks cfg notes s
  pumping : s.pumping = true → s.closed = false ∧ s.working = none ∧ OnlyCloses s
  listening : s.closed = false → s.waiting = false → s.state ≠ .greeting →
    s.working = none ∧ OnlyCloses s
  working : ∀ m, s.working = some m → s.state = .dataBody ∧ m.rcptTo = s.msg.rcptTo ∧ OnlyCloses s
  greeted : ∀ reply, s.writing = some (reply, .greeted) → s.state = .greeting
  toBody : ∀ reply, s.writing = some (reply, .toBody) → s.state = .dataInit

section Invariant

variable {cfg : Config} {s s' : Session} {ns more : List Note} {submission : Bool}

theorem Envelope.nil (h : s.submission = true → .auth ∈ ns) :
    Envelope cfg s.submission (ns ++ [.mail]) [] :=
  ⟨ns, rfl, Nat.zero_le _, List.forall_mem_nil _, h⟩

/-- A recipient that is accepted joins the envelope. -/
theorem Envelope.snoc {addr : Bytes} (h : Envelope cfg s.submission ns s.msg.rcptTo)
    (hauth : s.authOk = true → .auth ∈ ns) (hvalid : validateRcpt cfg s addr = none) :
    Envelope cfg s.submission (ns ++ [.rcpt addr]) (s.msg.rcptTo ++ [addr]) := by
  obtain ⟨before, rfl, hlen, hlocal, hsub⟩ := h
  rw [validateRcpt] at hvalid
  split at hvalid
  · cases hvalid
  · split at hvalid
    · cases hvalid
    · rename_i hroom
      split at hvalid
      · cases hvalid
      · rename_i hrelay
        refine ⟨before, by simp, ?_, ?_, hsub⟩
        · rw [List.length_append]
          exact Nat.lt_of_not_le hroom
        · intro a ha
          rw [List.mem_append, List.mem_singleton] at ha
          rcases ha with ha | rfl
          · exact hlocal a ha
          · cases hok : s.authOk with
            | true =>
              have hmem := hauth hok
              simp only [List.mem_append, List.mem_cons, reduceCtorEq, List.mem_map, and_false,
                exists_false, or_false] at hmem
              exact Or.inl hmem
            | false =>
              rw [hok, Bool.not_false, Bool.true_and, Bool.not_eq_true', Bool.not_eq_false]
                at hrelay
              exact Or.inr hrelay

/-- A command keeps the envelope of the state. -/
theorem Tracks.effect (h : Tracks cfg ns s) (hauth : s.authOk = true → .auth ∈ ns)
    (he : Effect cfg s more s') : Tracks cfg (ns ++ more) s' := by
  cases he with
  | plain hport _ hrcpt hstate _ =>
    rw [List.append_nil]
    rcases hstate with hstate | ⟨hbefore, hstate⟩
    · rw [Tracks, hstate, hport, hrcpt]
      exact h
    · rw [Tracks, hstate, hrcpt]
      rw [Tracks, hbefore] at h
      exact h
  | auth _ hrcpt hbefore hstate _ =>
    rw [Tracks, hbefore] at h
    rw [Tracks, hstate, hrcpt]
    exact h
  | mail hport _ hrcpt hbefore hstate hallowed _ =>
    rw [Tracks, hbefore] at h
    rw [Tracks, hstate, hport, hrcpt, h]
    exact ⟨Envelope.nil fun hsub => hauth (hallowed hsub), rfl⟩
  | rcpt addr hport _ hrcpt hbefore hstate hvalid _ =>
    have henv : Envelope cfg s.submission ns s.msg.rcptTo := by
      rcases hbefore with hbefore | hbefore
      · rw [Tracks, hbefore] at h
        exact h.1
      · rw [Tracks, hbefore] at h
        exact h.1
    rw [Tracks, hstate, hport, hrcpt]
    exact ⟨henv.snoc hauth hvalid, by simp⟩
  | data reply hport _ hrcpt hbefore hstate _ =>
    rw [Tracks, hbefore] at h
    rw [Tracks, hstate, hport, hrcpt, List.append_nil]
    exact h
  | reset _ _ hrcpt hstate _ =>
    rw [Tracks, hstate]
    exact hrcpt

theorem Effect.port (he : Effect cfg s more s') : s'.submission = s.submission := by
  cases he <;> assumption

theorem Effect.authOk (he : Effect cfg s more s') (hauth : s.authOk = true → .auth ∈ ns)
    (hok : s'.authOk = true) : .auth ∈ ns ++ more := by
  cases he with
  | auth => exact List.mem_append_right ns List.mem_cons_self
  | plain _ hsame => exact List.mem_append_left _ (hauth (hsame.symm.trans hok))
  | mail _ hsame => exact List.mem_append_left _ (hauth (hsame.symm.trans hok))
  | rcpt _ _ hsame => exact List.mem_append_left _ (hauth (hsame.symm.trans hok))
  | data _ _ hsame => exact List.mem_append_left _ (hauth (hsame.symm.trans hok))
  | reset _ hsame => exact List.mem_append_left _ (hauth (hsame.symm.trans hok))

/-- The reply to a command never drops the envelope, and it opens a message only
behind DATA. -/
theorem Effect.writing (he : Effect cfg s more s') {reply : Bytes} {next : Next}
    (h : s'.writing = some (reply, next)) :
    next = .resume ∨ next = .close ∨ next = .toBody ∧ s'.state = .dataInit := by
  have hreplies (hr : Replies s') : next = .resume ∨ next = .close := by
    obtain ⟨r, hr | hr⟩ := hr
    · rw [hr] at h
      cases h
      exact Or.inl rfl
    · rw [hr] at h
      cases h
      exact Or.inr rfl
  cases he with
  | plain _ _ _ _ hr => exact (hreplies hr).imp_right Or.inl
  | auth _ _ _ _ hr => exact (hreplies hr).imp_right Or.inl
  | mail _ _ _ _ _ _ hr => exact (hreplies hr).imp_right Or.inl
  | rcpt _ _ _ _ _ _ _ hr => exact (hreplies hr).imp_right Or.inl
  | reset _ _ _ _ hr => exact (hreplies hr).imp_right Or.inl
  | data _ _ _ _ _ hstate hwriting =>
    rw [hwriting] at h
    cases h
    exact Or.inr (Or.inr ⟨rfl, hstate⟩)

/-- An open session that has neither a worker nor a reply to wait for. -/
theorem Granted.of_idle (hport : s.submission = submission) (hauth : s.authOk = true → .auth ∈ ns)
    (henv : Tracks cfg ns s) (hclosed : s.closed = false) (hworking : s.working = none)
    (hcloses : OnlyCloses s) : Granted cfg submission ns s where
  port := hport
  auth := hauth
  envelope := henv
  pumping _ := ⟨hclosed, hworking, hcloses⟩
  listening _ _ _ := ⟨hworking, hcloses⟩
  working _ hm := absurd (hworking.symm.trans hm) nofun
  greeted reply h := absurd (hcloses reply _ h) nofun
  toBody reply h := absurd (hcloses reply _ h) nofun

/-- A session that waits for a reply to be written. -/
theorem Granted.of_reply (hport : s.submission = submission) (hauth : s.authOk = true → .auth ∈ ns)
    (henv : Tracks cfg ns s) (hpumping : s.pumping = false) (hwaiting : s.waiting = true)
    (hworking : s.working = none)
    (hnext : ∀ reply next, s.writing = some (reply, next) →
      next ≠ .greeted ∧ (next = .toBody → s.state = .dataInit)) :
    Granted cfg submission ns s where
  port := hport
  auth := hauth
  envelope := henv
  pumping h := absurd (hpumping.symm.trans h) nofun
  listening _ h _ := absurd (hwaiting.symm.trans h) nofun
  working _ hm := absurd (hworking.symm.trans hm) nofun
  greeted reply h := absurd rfl (hnext reply _ h).1
  toBody reply h := (hnext reply _ h).2 rfl

/-- A session that is closed, whatever it was waiting for. -/
theorem Granted.closeSession (h : Granted cfg submission ns s) (hpumping : s.pumping = false) :
    Granted cfg submission ns (closeSession s) where
  port := h.port
  auth := h.auth
  envelope := h.envelope
  pumping hp := absurd (hpumping.symm.trans hp) nofun
  listening := nofun
  working := h.working
  greeted := h.greeted
  toBody := h.toBody

/-- A line of a message. -/
theorem Granted.handleDataBody (h : Granted cfg submission ns s) (hstate : s.state = .dataBody)
    (hclosed : s.closed = false) (hworking : s.working = none) (hcloses : OnlyCloses s)
    (hwaiting : s.waiting = true) {line : Bytes} {keep : Bool}
    (hs : handleDataBody cfg s line = (keep, s')) :
    Granted cfg submission ns
      (if keep then { s' with waiting := false } else { s' with pumping := false }) := by
  have henv : Envelope cfg s.submission ns s.msg.rcptTo ∧ s.msg.rcptTo ≠ [] := by
    have henv := h.envelope
    rw [Tracks, hstate] at henv
    exact henv
  have htracks {t : Session} (ht : t.state = .dataBody) (hport : t.submission = s.submission)
      (hrcpt : t.msg.rcptTo = s.msg.rcptTo) : Tracks cfg ns t := by
    rw [Tracks, ht, hport, hrcpt]
    exact henv
  have hreset {reply r : Bytes} {next : Next} (hr : some (reply, Next.reset) = some (r, next)) :
      next ≠ .greeted ∧ (next = .toBody → s.state = .dataInit) := by
    cases hr
    exact ⟨by rintro ⟨⟩, by rintro ⟨⟩⟩
  rw [Smtp.handleDataBody] at hs
  split at hs
  · split at hs
    · cases hs
      exact .of_reply h.port h.auth (htracks hstate rfl rfl) rfl hwaiting hworking
        fun r next hr => hreset hr
    · cases hs
      exact {
        port := h.port
        auth := h.auth
        envelope := htracks hstate rfl rfl
        pumping := by rintro ⟨⟩
        listening := fun _ hw _ => by cases hwaiting.symm.trans hw
        working := by
          intro m hm
          cases hm
          exact ⟨hstate, rfl, hcloses⟩
        greeted := h.greeted
        toBody := h.toBody }
  · dsimp only at hs
    split at hs
    · cases hs
      exact .of_reply h.port h.auth (htracks hstate rfl rfl) rfl hwaiting hworking
        fun r next hr => hreset hr
    · cases hs
      exact .of_idle h.port h.auth (htracks hstate rfl rfl) hclosed hworking hcloses

/-- A command. -/
theorem Granted.dispatchCommand (h : Granted cfg submission ns s) (hstate : s.state ≠ .dataBody)
    (hclosed : s.closed = false) (hworking : s.working = none) (hcloses : OnlyCloses s)
    (hwaiting : s.waiting = true) {line : Bytes} {keep : Bool}
    (hs : dispatchCommand cfg s line = (keep, s')) :
    Granted cfg submission (ns ++ commandNotes cfg s line)
      (if keep then { s' with waiting := false } else { s' with pumping := false }) := by
  rcases dispatchCommand_cases hstate line with hsame | ⟨s1, hs1, hans⟩
  · rw [hsame] at hs
    cases hs
    rw [if_pos rfl, commandNotes_of_ignored hsame, List.append_nil]
    exact .of_idle h.port h.auth h.envelope hclosed hworking hcloses
  · rw [hs1] at hs
    cases hs
    have he := dispatchCommand_effect line hs1
    have henv : Tracks cfg (ns ++ commandNotes cfg s line) s' := h.envelope.effect h.auth he
    rw [if_neg Bool.false_ne_true]
    refine .of_reply (he.port.trans h.port) (he.authOk h.auth) henv rfl
      (hans.waiting.trans hwaiting) (hans.working.trans hworking) ?_
    intro reply next hr
    rcases he.writing hr with rfl | rfl | ⟨rfl, hinit⟩
    · exact ⟨nofun, nofun⟩
    · exact ⟨nofun, nofun⟩
    · exact ⟨nofun, fun _ => hinit⟩

/-! ## Steps -/

theorem Granted.pumpTurn (h : Granted cfg submission ns s) (hpumping : s.pumping = true) :
    Granted cfg submission (ns ++ notes cfg s .turn) (pumpTurn cfg s) := by
  obtain ⟨hclosed, hworking, hcloses⟩ := h.pumping hpumping
  rw [Smtp.pumpTurn, notes]
  cases hline : breakOn [lf] s.buf with
  | none =>
    dsimp only
    rw [List.append_nil]
    by_cases hlong : lineMax < s.buf.length
    · rw [if_pos hlong]
      refine .of_idle h.port h.auth h.envelope hclosed hworking ?_
      intro reply next hr
      cases hr
      rfl
    · rw [if_neg hlong]
      exact .of_idle h.port h.auth h.envelope hclosed hworking hcloses
  | some parts =>
    obtain ⟨line, rest⟩ := parts
    have hread : Granted cfg submission ns { s with buf := rest, waiting := true } :=
      .of_idle h.port h.auth h.envelope hclosed hworking hcloses
    dsimp only
    rw [dispatchLine]
    by_cases hstate : s.state = .dataBody
    · rw [if_pos hstate, if_pos hstate, List.append_nil]
      cases hs1 : Smtp.handleDataBody cfg { s with buf := rest, waiting := true } (stripCr line) with
      | mk keep s1 =>
        have hdone := hread.handleDataBody hstate hclosed hworking hcloses rfl hs1
        cases keep <;> exact hdone
    · rw [if_neg hstate, if_neg hstate]
      have hlogged : Granted cfg submission ns
          { s with buf := rest, waiting := true, log := s.log ++ [.command (stripCr line)] } :=
        .of_idle h.port h.auth h.envelope hclosed hworking hcloses
      cases hs1 : Smtp.dispatchCommand cfg
          { s with buf := rest, waiting := true, log := s.log ++ [.command (stripCr line)] }
          (stripCr line) with
      | mk keep s1 =>
        have hdone := hlogged.dispatchCommand hstate hclosed hworking hcloses rfl hs1
        cases keep <;> exact hdone

theorem Granted.onData (h : Granted cfg submission ns s) (hclosed : s.closed = false)
    (hpumping : s.pumping = false) (hstate : s.state ≠ .greeting) (bytes : Bytes) :
    Granted cfg submission ns (onData cfg s bytes) := by
  rw [Smtp.onData]
  split
  · exact h.closeSession hpumping
  · have hmore : Granted cfg submission ns { s with buf := s.buf ++ bytes } :=
      ⟨h.port, h.auth, h.envelope, h.pumping, h.listening, h.working, h.greeted, h.toBody⟩
    dsimp only
    split
    · split
      · exact hmore.closeSession hpumping
      · exact hmore
    · rename_i hwaiting
      obtain ⟨hworking, hcloses⟩ := h.listening hclosed (by simpa using hwaiting) hstate
      exact .of_idle h.port h.auth h.envelope hclosed hworking hcloses

/-- A worker is under way only behind a reply that closes the session. -/
theorem Granted.working_none (h : Granted cfg submission ns s) {reply : Bytes} {next : Next}
    (hwriting : s.writing = some (reply, next)) (hnext : next ≠ .close) : s.working = none := by
  cases hm : s.working with
  | none => rfl
  | some m => exact absurd ((h.working m hm).2.2 reply next hwriting) hnext

/-- The reply has been taken off. -/
theorem Granted.written (h : Granted cfg submission ns s) (hpumping : s.pumping = false) :
    Granted cfg submission ns { s with writing := none } where
  port := h.port
  auth := h.auth
  envelope := h.envelope
  pumping hp := absurd (hpumping.symm.trans hp) nofun
  listening hc hw hs := ⟨(h.listening hc hw hs).1, nofun⟩
  working m hm := ⟨(h.working m hm).1, (h.working m hm).2.1, nofun⟩
  greeted := nofun
  toBody := nofun

theorem Granted.resetEnvelope (h : Granted cfg submission ns s) (hworking : s.working = none)
    (hclosed : s.closed = false) (hwriting : s.writing = none) :
    Granted cfg submission (ns ++ [.reset]) (resetEnvelope s) := by
  refine .of_idle h.port (fun hok => List.mem_append_left _ (h.auth hok)) rfl hclosed hworking ?_
  intro reply next hr
  exact absurd (hwriting.symm.trans hr) nofun

/-- A session that goes on takes lines again. -/
theorem Granted.resume (h : Granted cfg submission ns s) (hworking : s.working = none)
    (hclosed : s.closed = false) (hwriting : s.writing = none) :
    Granted cfg submission ns (resume s) := by
  refine .of_idle h.port h.auth h.envelope hclosed hworking ?_
  intro reply next hr
  exact absurd (hwriting.symm.trans hr) nofun

/-- A reply has been written. -/
theorem Granted.afterWrite (h : Granted cfg submission ns s) (hclosed : s.closed = false)
    (hpumping : s.pumping = false) {reply : Bytes} {next : Next}
    (hwriting : s.writing = some (reply, next)) :
    Granted cfg submission (ns ++ notes cfg s (.written true))
      (afterWrite { s with writing := none } next) := by
  have hfree := h.written hpumping
  rw [notes, hwriting]
  cases next with
  | greeted =>
    have hworking := h.working_none hwriting nofun
    have henv := h.envelope
    rw [Tracks, h.greeted reply hwriting] at henv
    rw [List.append_nil]
    exact .of_idle h.port h.auth henv hclosed hworking nofun
  | resume =>
    rw [List.append_nil]
    exact hfree.resume (h.working_none hwriting nofun) hclosed rfl
  | close =>
    rw [List.append_nil]
    exact hfree.closeSession hpumping
  | toBody =>
    have henv := h.envelope
    rw [Tracks, h.toBody reply hwriting] at henv
    rw [List.append_nil]
    exact .of_idle h.port h.auth henv hclosed (h.working_none hwriting nofun) nofun
  | reset =>
    have hworking := h.working_none hwriting nofun
    exact (hfree.resetEnvelope hworking hclosed rfl).resume hworking hclosed rfl
  | delivered =>
    have hworking := h.working_none hwriting nofun
    exact (hfree.resetEnvelope hworking hclosed rfl).resume hworking hclosed rfl

/-- A reply could not be written. -/
theorem Granted.afterFailure (h : Granted cfg submission ns s) (hclosed : s.closed = false)
    (hpumping : s.pumping = false) {reply : Bytes} {next : Next}
    (hwriting : s.writing = some (reply, next)) :
    Granted cfg submission (ns ++ notes cfg s (.written false))
      (afterFailure { s with writing := none } next) := by
  have hfree := h.written hpumping
  rw [notes, hwriting]
  cases next with
  | delivered => exact hfree.resetEnvelope (h.working_none hwriting nofun) hclosed rfl
  | reset =>
    dsimp only
    rw [if_neg Bool.false_ne_true, List.append_nil]
    exact hfree.closeSession hpumping
  | greeted =>
    rw [List.append_nil]
    exact hfree.closeSession hpumping
  | resume =>
    rw [List.append_nil]
    exact hfree.closeSession hpumping
  | close =>
    rw [List.append_nil]
    exact hfree.closeSession hpumping
  | toBody =>
    rw [List.append_nil]
    exact hfree.closeSession hpumping

/-- A worker is done with a message: its reply waits for the envelope to be dropped. -/
theorem Granted.workerDone (h : Granted cfg submission ns s) (hpumping : s.pumping = false)
    {m : Mail} (hm : s.working = some m) (accepted : Bool)
    (hs : step cfg s (.workerDone accepted) = some s') : Granted cfg submission ns s' := by
  rw [step, hpumping, if_neg Bool.false_ne_true, hm] at hs
  dsimp only at hs
  have hstate := (h.working m hm).1
  have hwaiting (hclosed : s.closed = false) : s.waiting = true := by
    cases hw : s.waiting with
    | true => rfl
    | false =>
      have hnone := (h.listening hclosed hw (by rw [hstate]; rintro ⟨⟩)).1
      cases hnone.symm.trans hm
  split at hs
  · rename_i hclosed
    cases hs
    exact {
      port := h.port
      auth := h.auth
      envelope := h.envelope
      pumping := by rintro ⟨⟩
      listening := fun hc => by cases hclosed.symm.trans hc
      working := by rintro _ ⟨⟩
      greeted := h.greeted
      toBody := h.toBody }
  · rename_i hclosed
    cases hs
    refine .of_reply h.port h.auth h.envelope rfl (hwaiting (by simpa using hclosed)) rfl ?_
    intro reply next hr
    cases hr
    exact ⟨by rintro ⟨⟩, by rintro ⟨⟩⟩

/-- Every step keeps the invariant. -/
theorem Granted.step {e : Event} (h : Granted cfg submission ns s)
    (hs : step cfg s e = some s') : Granted cfg submission (ns ++ notes cfg s e) s' := by
  cases e with
  | recv bytes =>
    rw [Smtp.step] at hs
    split at hs
    · cases hs
    · rename_i hguard
      cases hs
      simp only [Bool.or_eq_true, decide_eq_true_eq, not_or, Bool.not_eq_true] at hguard
      rw [notes, List.append_nil]
      exact h.onData hguard.1.1 hguard.1.2 hguard.2 bytes
  | turn =>
    rw [Smtp.step] at hs
    split at hs
    · rename_i hpumping
      cases hs
      exact h.pumpTurn hpumping
    · cases hs
  | written ok =>
    rw [Smtp.step] at hs
    split at hs
    · cases hs
    · rename_i hguard
      simp only [Bool.or_eq_true, not_or, Bool.not_eq_true] at hguard
      split at hs
      · cases hs
      · rename_i reply next hwriting
        cases ok with
        | true =>
          cases hs
          exact h.afterWrite hguard.1 hguard.2 hwriting
        | false =>
          cases hs
          exact h.afterFailure hguard.1 hguard.2 hwriting
  | workerDone accepted =>
    have hcopy := hs
    rw [Smtp.step] at hs
    split at hs
    · cases hs
    · rename_i hpumping
      split at hs
      · cases hs
      · rename_i m hm
        rw [notes, List.append_nil]
        exact h.workerDone (by simpa using hpumping) hm accepted hcopy

theorem Granted.steps {events : List Event} (h : Granted cfg submission ns s)
    (hs : steps cfg s events = some s') :
    Granted cfg submission (ns ++ history cfg s events) s' := by
  induction events generalizing s ns with
  | nil =>
    cases hs
    rw [history, List.append_nil]
    exact h
  | cons e events ih =>
    rw [Smtp.steps, List.foldlM_cons, Option.bind_eq_bind, Option.bind_eq_some_iff] at hs
    obtain ⟨s1, hs1, hrest⟩ := hs
    rw [history, hs1]
    dsimp only
    rw [← List.append_assoc]
    exact ih (h.step hs1) hrest

theorem Granted.start (cfg : Config) (submission : Bool) (ip : Bytes) :
    Granted cfg submission [] (Session.start cfg submission ip) where
  port := rfl
  auth := nofun
  envelope := rfl
  pumping := nofun
  listening _ _ h := absurd rfl h
  working := nofun
  greeted _ _ := rfl
  toBody := nofun

end Invariant

/-! ## No open relay -/

/-- A server for the domain `d.com`. -/
def mailConfig : Config :=
  { smallConfig 100 with isLocalDomain := isLocalDomain (ascii "a.org, d.com") }

/-- An envelope that is reset, and one with a stranger among its recipients. -/
def strangers : List Event :=
  [.written true, .recv (ascii ("EHLO a\r\nMAIL FROM:<a@b>\r\nRCPT TO:<x@d.com>\r\nRSET\r\n" ++
      "MAIL FROM:<a@b>\r\nRCPT TO:<y@e>\r\nRCPT TO:<z@D.COM.>\r\nDATA\r\nhi\r\n.\r\n")),
    .turn, .written true, .turn, .written true, .turn, .written true, .turn, .written true,
    .turn, .written true, .turn, .written true, .turn, .written true, .turn, .written true,
    .turn, .turn]

end Smtp

end Look
