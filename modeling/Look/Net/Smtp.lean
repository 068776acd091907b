/-
The SMTP session: `SmtpSession` and the callbacks that move it.

Everything happens in callbacks on the thread of the event loop: bytes have arrived,
a reply has been written, a worker is done with a message.  While a reply or a worker
is under way the lines that arrive wait in the buffer.  A callback runs to its end
before the next one, but the loop of `pump` inside it is taken one line at a time
here, so that every line is a step of its own.

`log` is not part of the source: it records how each line was taken.
-/
import Mathlib.Algebra.Group.Int.Defs
import Mathlib.Algebra.Group.Nat.Defs
import Look.Net.HttpParse

namespace Look

namespace Smtp

open Http (Bytes lf cr crlf isBlank isDigit decimal)

/-! ## The data of a session -/

inductive State where
  | greeting
  | ehlo
  | ready
  | starttlsWait
  | mailFrom
  | rcptTo
  | dataInit
  | dataBody
  | quit
deriving DecidableEq

/-- `SmtpMessage`, as far as the session fills it in. -/
structure Mail where
  mailFrom : Bytes
  rcptTo : List Bytes
  data : Bytes
  remoteIp : Bytes
  authenticated : Bool
deriving DecidableEq

/-- What happens when a reply has been written. -/
inductive Next where
  | greeted
  | resume
  | close
  | toBody
  | reset
  | delivered
deriving DecidableEq

/-- How a line was taken: as a command, as a line of the message, or as the line that
ends the message, with what was handed to a worker then.  `start` is the reply to
DATA. -/
inductive Obs where
  | command (line : Bytes)
  | start
  | text (line : Bytes)
  | dot (handed : Option Bytes)
deriving DecidableEq

structure Session where
  state : State
  buf : Bytes
  waiting : Bool
  msg : Mail
  ehloDomain : Bytes
  errorCount : Nat
  submission : Bool
  authOk : Bool
  closed : Bool
  /-- The loop of `pump` is running. -/
  pumping : Bool
  /-- The reply that is being written. -/
  writing : Option (Bytes × Next)
  /-- The message that a worker has. -/
  working : Option Mail
  log : List Obs
deriving DecidableEq

/-- The settings of the server. -/
structure Config where
  banner : Bytes
  maxMsg : Nat
  maxRcpt : Nat
  maxErrors : Nat
  sslCtx : Bool
  isLocalDomain : Bytes → Bool
  validateAuth : Bytes → Bool
  /-- A domain and a key for DKIM are set. -/
  dkim : Bool
  /-- `dkim_sign`; nothing when it throws. -/
  dkimSign : Bytes → Option Bytes

/-! ## Parsing -/

def toUpper (b : UInt8) : UInt8 := if 97 ≤ b ∧ b ≤ 122 then b - 32 else b

def upper (s : Bytes) : Bytes := s.map toUpper

/-- `smtp_verb`. -/
def smtpVerb (line : Bytes) : Bytes :=
  upper (line.takeWhile fun b => b != Http.sp && b != cr && b != lf)

/-- `smtp_extract_addr`: nothing when the parameter is not well formed. -/
def smtpExtractAddr (line : Bytes) : Option Bytes :=
  match breakOn [Http.colon] line with
  | none => none
  | some (_, rest) =>
    match rest.dropWhile isBlank with
    | [] => none
    | 60 :: inner =>
      match breakOn [62] inner with
      | none => none
      | some (addr, _) => if addr.contains 60 || addr.contains Http.sp then none else some addr
    | rest =>
      let addr := rest.takeWhile fun b => !isBlank b
      if addr.isEmpty || addr.contains 60 || addr.contains 62 then none else some addr

def isSpace (b : UInt8) : Bool := b == 32 || (9 ≤ b && b ≤ 13)

/-- `std::strtoull` with base 10. -/
def strtoull (s : Bytes) : Nat :=
  let (negative, digits) :=
    match s.dropWhile isSpace with
    | 45 :: rest => (true, rest)
    | 43 :: rest => (false, rest)
    | rest => (false, rest)
  let n := decimal (digits.takeWhile isDigit)
  if 2 ^ 64 ≤ n then 2 ^ 64 - 1 else if negative then (2 ^ 64 - n) % 2 ^ 64 else n

/-- The size that a MAIL command declares is above the limit. -/
def declaresTooMuch (maxMsg : Nat) (line : Bytes) : Bool :=
  match breakOn (ascii " SIZE=") (upper line) with
  | none => false
  | some (_, rest) => maxMsg < strtoull rest

/-- What stands behind the first occurrence of a byte. -/
def behindFirst (b : UInt8) (s : Bytes) : Option Bytes := (breakOn [b] s).map Prod.snd

/-- What stands behind the last occurrence of a byte, or nothing. -/
def behindLast (b : UInt8) (s : Bytes) : Bytes :=
  match breakOn [b] s.reverse with
  | some (tail, _) => tail.reverse
  | none => []

/-- `smtp_is_loopback`. -/
def smtpIsLoopback (ip : Bytes) : Bool := (ascii "127.").isPrefixOf ip || ip == ascii "::1"

/-! ## Replies -/

/-- `reset_envelope`. -/
def resetEnvelope (s : Session) : Session :=
  { s with msg := { s.msg with mailFrom := [], rcptTo := [], data := [] }, state := .ready }

/-- `send_reply`. -/
def sendReply (s : Session) (reply : Bytes) (next : Next) : Session :=
  { s with writing := some (reply, next) }

/-- `error_reply`. -/
def errorReply (cfg : Config) (s : Session) (reply : Bytes) : Session :=
  let s := { s with errorCount := s.errorCount + 1 }
  if cfg.maxErrors ≤ s.errorCount then
    sendReply s (ascii "421 4.7.0 Too many errors\r\n") .close
  else sendReply s reply .resume

/-! ## Commands -/

/-- `handle_ehlo`. -/
def handleEhlo (cfg : Config) (s : Session) (verb line : Bytes) : Session :=
  if verb ≠ ascii "EHLO" ∧ verb ≠ ascii "HELO" then
    errorReply cfg s (ascii "503 5.5.1 Send EHLO first\r\n")
  else
    let reply := ascii "250-" ++ cfg.banner ++ ascii "\r\n250-SIZE " ++
      ascii (toString cfg.maxMsg) ++
      ascii "\r\n250-8BITMIME\r\n250-PIPELINING\r\n250-SMTPUTF8\r\n"
    let auth := if s.submission && !cfg.sslCtx && smtpIsLoopback s.msg.remoteIp then
      ascii "250-AUTH PLAIN LOGIN\r\n" else []
    let s := { s with
      ehloDomain := (behindFirst Http.sp line).getD (ascii "unknown"), state := .ready }
    sendReply s (reply ++ auth ++ ascii "250 OK\r\n") .resume

/-- The mechanism and the initial response of an AUTH command. -/
def authParameters (line : Bytes) : Bytes × Bytes :=
  let rest := (behindFirst Http.sp line).getD []
  (breakOn [Http.sp] rest).getD (rest, [])

def handleAuth (cfg : Config) (s : Session) (line : Bytes) : Session :=
  if !s.submission then errorReply cfg s (ascii "503 5.5.1 AUTH not permitted on port 25\r\n")
  else if s.authOk then errorReply cfg s (ascii "503 5.5.1 Already authenticated\r\n")
  else if cfg.sslCtx then
    errorReply cfg s (ascii ("530 5.7.0 Encryption is required for AUTH and STARTTLS is not " ++
      "available on this server\r\n"))
  else if !smtpIsLoopback s.msg.remoteIp then
    errorReply cfg s (ascii ("530 5.7.0 AUTH without encryption is accepted from this machine " ++
      "only (127.0.0.1 / ::1)\r\n"))
  else
    let (mech, initial) := authParameters line
    if upper mech ≠ ascii "PLAIN" ∧ upper mech ≠ ascii "LOGIN" then
      errorReply cfg s (ascii "504 5.7.4 AUTH mechanism not supported\r\n")
    else if cfg.validateAuth initial then
      let s := { s with authOk := true, msg := { s.msg with authenticated := true } }
      sendReply s (ascii "235 2.7.0 Authentication successful\r\n") .resume
    else errorReply cfg s (ascii "535 5.7.8 Authentication credentials invalid\r\n")

def handleMail (cfg : Config) (s : Session) (line : Bytes) : Session :=
  if s.submission && cfg.sslCtx then
    errorReply cfg s (ascii ("530 5.7.0 Encryption is required on this port and STARTTLS is not " ++
      "available on this server\r\n"))
  else if declaresTooMuch cfg.maxMsg line then
    errorReply cfg s (ascii ("552 5.3.4 Message size exceeds the fixed maximum message " ++
      "size\r\n"))
  else if s.submission && !s.authOk then
    errorReply cfg s (ascii "530 5.7.0 Authentication required\r\n")
  else
    match smtpExtractAddr line with
    | none => errorReply cfg s (ascii "501 5.1.7 Bad sender address\r\n")
    | some addr =>
      let s := { s with msg := { s.msg with mailFrom := addr }, state := .mailFrom }
      sendReply s (ascii "250 2.1.0 OK\r\n") .resume

/-- `handle_ready`.  TLS is never active, because STARTTLS is not offered. -/
def handleReady (cfg : Config) (s : Session) (verb line : Bytes) : Session :=
  if verb = ascii "STARTTLS" then
    errorReply cfg s (ascii "502 5.5.1 STARTTLS is not available on this server\r\n")
  else if verb = ascii "AUTH" then handleAuth cfg s line
  else if verb = ascii "MAIL" then handleMail cfg s line
  else if verb = ascii "EHLO" ∨ verb = ascii "HELO" then handleEhlo cfg s verb line
  else errorReply cfg s (ascii "503 5.5.1 Need MAIL command\r\n")

/-- `validate_rcpt`: the reply that refuses the recipient. -/
def validateRcpt (cfg : Config) (s : Session) (addr : Bytes) : Option Bytes :=
  if addr.isEmpty then some (ascii "501 5.1.3 Bad recipient address\r\n")
  else if cfg.maxRcpt ≤ s.msg.rcptTo.length then
    some (ascii "452 4.5.3 Too many recipients\r\n")
  else if !s.authOk && !cfg.isLocalDomain (behindLast 64 addr) then
    some (ascii "550 5.7.1 Relay access denied " ++ [226, 128, 148] ++
      ascii " set LOOK_SMTP_LOCAL_DOMAINS\r\n")
  else none

/-- The RCPT command in the two states that take it. -/
def handleRcpt (cfg : Config) (s : Session) (line : Bytes) : Session :=
  let addr := (smtpExtractAddr line).getD []
  match validateRcpt cfg s addr with
  | some refusal => errorReply cfg s refusal
  | none =>
    let s := { s with msg := { s.msg with rcptTo := s.msg.rcptTo ++ [addr] }, state := .rcptTo }
    sendReply s (ascii "250 2.1.5 OK\r\n") .resume

/-- `handle_mail_from_state`. -/
def handleMailFromState (cfg : Config) (s : Session) (verb line : Bytes) : Session :=
  if verb ≠ ascii "RCPT" then errorReply cfg s (ascii "503 5.5.1 Need RCPT TO\r\n")
  else handleRcpt cfg s line

/-- `handle_rcpt_to_state`. -/
def handleRcptToState (cfg : Config) (s : Session) (verb line : Bytes) : Session :=
  if verb = ascii "RCPT" then handleRcpt cfg s line
  else if verb = ascii "DATA" then
    sendReply { s with state := .dataInit }
      (ascii "354 Start mail input; end with <CRLF>.<CRLF>\r\n") .toBody
  else errorReply cfg s (ascii "503 5.5.1 Need DATA or more RCPT\r\n")

/-! ## The body of a message -/

/-- The line without the dot that the client has put in front. -/
def unstuff : Bytes → Bytes
  | 46 :: line => line
  | line => line

/-- `handle_data_body`, and whether the loop goes on. -/
def handleDataBody (cfg : Config) (s : Session) (line : Bytes) : Bool × Session :=
  if line = [46] then
    if cfg.maxMsg < s.msg.data.length then
      (false, sendReply { s with log := s.log ++ [.dot none] }
        (ascii "552 5.3.4 Message too large\r\n") .reset)
    else
      (false, { s with working := some s.msg, log := s.log ++ [.dot (some s.msg.data)] })
  else
    let data := s.msg.data ++ unstuff line ++ crlf
    let s := { s with msg := { s.msg with data := data }, log := s.log ++ [.text line] }
    if cfg.maxMsg < data.length then
      (false, sendReply s (ascii "552 5.3.4 Message too large\r\n") .reset)
    else (true, s)

/-! ## Lines -/

/-- `dispatch_line` outside a message. -/
def dispatchCommand (cfg : Config) (s : Session) (line : Bytes) : Bool × Session :=
  let verb := smtpVerb line
  if verb = ascii "QUIT" then (false, sendReply s (ascii "221 2.0.0 Bye\r\n") .close)
  else if verb = ascii "RSET" then
    (false, sendReply (resetEnvelope s) (ascii "250 2.0.0 Reset\r\n") .resume)
  else if verb = ascii "NOOP" then (false, sendReply s (ascii "250 2.0.0 OK\r\n") .resume)
  else
    match s.state with
    | .ehlo => (false, handleEhlo cfg s verb line)
    | .ready => (false, handleReady cfg s verb line)
    | .mailFrom => (false, handleMailFromState cfg s verb line)
    | .rcptTo => (false, handleRcptToState cfg s verb line)
    | .dataInit => (true, s)
    | _ => (false, errorReply cfg s (ascii "503 5.5.1 Bad sequence\r\n"))

/-- `dispatch_line`. -/
def dispatchLine (cfg : Config) (s : Session) (line : Bytes) : Bool × Session :=
  if s.state = .dataBody then handleDataBody cfg s line
  else dispatchCommand cfg { s with log := s.log ++ [.command line] } line

/-- A line without the CR at its end. -/
def stripCr (line : Bytes) : Bytes := if line.getLast? = some cr then line.dropLast else line

/-- `SMTP_LINE_MAX` and `SMTP_PENDING_SLACK`. -/
def lineMax : Nat := 64 * 1024

/-- One turn of the loop of `pump`. -/
def pumpTurn (cfg : Config) (s : Session) : Session :=
  match breakOn [lf] s.buf with
  | none =>
    let s := { s with pumping := false }
    if lineMax < s.buf.length then sendReply s (ascii "500 5.5.2 Line too long\r\n") .close
    else s
  | some (line, rest) =>
    match dispatchLine cfg { s with buf := rest, waiting := true } (stripCr line) with
    | (true, s) => { s with waiting := false }
    | (false, s) => { s with pumping := false }

/-! ## Callbacks -/

inductive Event where
  | recv (bytes : Bytes)
  | turn
  | written (ok : Bool)
  | workerDone (accepted : Bool)
deriving DecidableEq

/-- `close_session`. -/
def closeSession (s : Session) : Session := { s with closed := true }

/-- `on_data`. -/
def onData (cfg : Config) (s : Session) (bytes : Bytes) : Session :=
  if bytes.isEmpty then closeSession s
  else
    let s := { s with buf := s.buf ++ bytes }
    if s.waiting then
      if cfg.maxMsg + lineMax < s.buf.length then closeSession s else s
    else { s with pumping := true }

/-- `resume`, up to the loop. -/
def resume (s : Session) : Session := { s with waiting := false, pumping := true }

/-- The callback of a reply that has been written. -/
def afterWrite (s : Session) : Next → Session
  | .greeted => { s with state := .ehlo }
  | .resume => resume s
  | .close => closeSession s
  | .toBody => resume { s with state := .dataBody, log := s.log ++ [.start] }
  | .reset => resume (resetEnvelope s)
  | .delivered => resume (resetEnvelope s)

/-- The callback of a reply that could not be written. -/
def afterFailure (s : Session) : Next → Session
  | .delivered => resetEnvelope s
  | _ => closeSession s

/-- One step: a callback, or one turn of the loop inside it.  Nothing when it cannot
happen. -/
def step (cfg : Config) (s : Session) : Event → Option Session
  | .recv bytes =>
    if s.closed || s.pumping || s.state = .greeting then none else some (onData cfg s bytes)
  | .turn => if s.pumping then some (pumpTurn cfg s) else none
  | .written ok =>
    if s.closed || s.pumping then none
    else
      match s.writing with
      | none => none
      | some (_, next) =>
        let s := { s with writing := none }
        some (if ok then afterWrite s next else afterFailure s next)
  | .workerDone accepted =>
    if s.pumping then none
    else
      match s.working with
      | none => none
      | some _ =>
        let s := { s with working := none }
        if s.closed then some s
        else some (sendReply s (if accepted then ascii "250 2.6.0 Message accepted\r\n"
          else ascii "550 5.7.1 Message rejected by policy\r\n") .delivered)

/-- The message that the handler sees: the worker puts a signature in front of the
mail of an authenticated client. -/
def handlerText (cfg : Config) (m : Mail) : Bytes :=
  if m.authenticated && cfg.dkim && !m.data.isEmpty then
    match cfg.dkimSign m.data with
    | some signature => signature ++ crlf ++ m.data
    | none => m.data
  else m.data

/-- `on_accept`: the banner is being written. -/
def Session.start (cfg : Config) (submission : Bool) (ip : Bytes) : Session where
  state := .greeting
  buf := []
  waiting := false
  msg := ⟨[], [], [], ip, false⟩
  ehloDomain := []
  errorCount := 0
  submission := submission
  authOk := false
  closed := false
  pumping := false
  writing := some (ascii "220 " ++ cfg.banner ++ ascii " ESMTP LOOK\r\n", .greeted)
  working := none
  log := []

/-- A sequence of steps. -/
def steps (cfg : Config) (s : Session) (events : List Event) : Option Session :=
  events.foldlM (step cfg) s

end Smtp

end Look
