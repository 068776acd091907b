/-
The IMAP session: lines, commands and the literal of APPEND.

What the client sends is a list of segments.  Bytes that it holds back until the server asks
for them stand there as `held`: when the server asks they are sent, and when it does not the
client goes on behind them.  A turn of the loop in `run_session` reads a line and runs the
command in it; while IDLE is going on, the line must be DONE.  What the file system, the
login handler and the TLS library answer is the `Host` of the turn.  Writing to the client
does not fail here, and the new mail that IDLE announces is left out.
-/
import Mathlib
import Look.Decimal
import Look.Lib.Find
import Look.Net.Smtp

namespace Look

namespace Imap

open Http (Bytes lf cr crlf)
open Smtp (upper isSpace)

local instance : LawfulBEq Bytes := inferInstance

/-! ## What the client sends -/

inductive Segment where
  | sent (s : Bytes)
  | held (s : Bytes)
deriving DecidableEq

abbrev Wire := List Segment

/-- The next byte; a client that is not asked goes on. -/
def recvByte : Wire → Option (UInt8 × Wire)
  | [] => none
  | .held _ :: w => recvByte w
  | .sent [] :: w => recvByte w
  | .sent (c :: s) :: w => some (c, .sent s :: w)

/-- The client is asked to go on. -/
def goAhead : Wire → Wire
  | .held s :: w => .sent s :: w
  | .sent [] :: w => goAhead w
  | w => w

/-- `read_exact`. -/
def readExact : Nat → Wire → Option (Bytes × Wire)
  | 0, w => some ([], w)
  | n + 1, w => do
    let (c, w) ← recvByte w
    let (data, w) ← readExact n w
    pure (c :: data, w)

inductive Line where
  | line (s : Bytes)
  | more (s : Bytes)
  | tooLong

/-- The loop of `read_line` in the bytes of a segment. -/
def scanLine (max : Nat) (out : Bytes) : Bytes → Line × Bytes
  | [] => (.more out, [])
  | c :: s =>
    if c = cr then scanLine max out s
    else if c = lf then (.line out, s)
    else if max < (out ++ [c]).length then (.tooLong, s)
    else scanLine max (out ++ [c]) s

/-- `read_line`. -/
def readLine (max : Nat) (out : Bytes) : Wire → Option Bytes × Wire
  | [] => (none, [])
  | .held _ :: w => readLine max out w
  | .sent s :: w =>
    match scanLine max out s with
    | (.line l, rest) => (some l, .sent rest :: w)
    | (.more l, _) => readLine max l w
    | (.tooLong, rest) => (none, .sent rest :: w)

/-! ## Parsing -/

/-- `imap_parse_command`: tag, command and arguments. -/
def parseCommand (line : Bytes) : Bytes × Bytes × Bytes :=
  match breakOn [0x20] line with
  | none => (line, [], [])
  | some (tag, rest) =>
    match breakOn [0x20] rest with
    | none => (tag, upper rest, [])
    | some (cmd, args) => (tag, upper cmd, args)

def quote : UInt8 := 0x22

def unquote (s : Bytes) : Bytes :=
  if 2 ≤ s.length ∧ s.head? = some quote ∧ s.getLast? = some quote then (s.drop 1).dropLast else s

/-- The next argument, with its quotes, and what is behind it. -/
def nextToken (args : Bytes) : Bytes × Bytes :=
  match args.dropWhile (· = 0x20) with
  | [] => ([], [])
  | c :: rest =>
    if c = quote then
      match breakOn [quote] rest with
      | none => (c :: rest, [])
      | some (x, y) => (c :: (x ++ [quote]), y)
    else
      match breakOn [0x20] (c :: rest) with
      | none => (c :: rest, [])
      | some (x, y) => (x, 0x20 :: y)

/-- `imap_split_two`. -/
def splitTwo (args : Bytes) : Bytes × Bytes :=
  let (a, rest) := nextToken args
  (unquote a, unquote (nextToken rest).1)

/-- `rfind`, with what stands before and behind. -/
def cutLast (c : UInt8) (s : Bytes) : Option (Bytes × Bytes) :=
  (breakOn [c] s.reverse).map fun (x, y) => (y.reverse, x.reverse)

/-- The words of a stream. -/
def words (s : Bytes) : List Bytes := (s.splitOnP isSpace).filter (· ≠ [])

/-- `imap_to_maildir_flag`. -/
def maildirFlag (f : Bytes) : Bytes :=
  if upper f = ascii "\\SEEN" then ascii "S"
  else if upper f = ascii "\\ANSWERED" then ascii "R"
  else if upper f = ascii "\\FLAGGED" then ascii "F"
  else if upper f = ascii "\\DELETED" then ascii "T"
  else if upper f = ascii "\\DRAFT" then ascii "D"
  else []

/-- A byte that no mailbox name contains. -/
def isForbidden (c : UInt8) : Bool := c = 0x2F || c = 0x5C || c = 0x3B || c < 0x20 || c = 0x7F

/-- `imap_mailbox_name_ok`. -/
def mailboxName (name : Bytes) : Option Bytes :=
  let mb := unquote name
  if mb = [] ∨ mb = ascii "INBOX" then some (ascii "INBOX")
  else if 0 ∈ mb then none
  else if mb.head? = some 0x2F ∨ mb.head? = some 0x5C then none
  else if (breakOn (ascii "..") mb).isSome then none
  else if mb.any isForbidden then none
  else some mb

/-! ## The session -/

structure Session where
  tls : Bool
  authenticated : Bool
  root : Bytes
  selected : Bytes
  messages : List Bytes
  errors : Nat
  /-- The tag of the IDLE that is going on. -/
  idling : Option Bytes
  sent : List Bytes

structure Host where
  sslCtx : Bool
  handshake : Bool
  auth : Bytes → Bytes → Option Bytes
  folder : Bytes → Bytes → Bytes
  build : Bytes → List Bytes
  store : Bytes → Bytes → Bytes → Bool
  /-- What the commands that read the mailbox send and leave of the messages. -/
  answer : Bytes → Bytes → Bytes → Session → Bytes × List Bytes
  maxLine : Nat
  maxLiteral : Nat
  maxErrors : Nat

/-- `send_all`. -/
def Session.send (s : Session) (reply : Bytes) : Session := { s with sent := s.sent ++ [reply] }

/-- How the loop goes on; for `literal` the bytes are read first. -/
inductive Next where
  | go (s : Session)
  | close (s : Session)
  | literal (s : Session) (sync : Bool) (size : Nat) (finish : Bytes → Session)

variable (h : Host)

/-- `resolve_mailbox`: the path, or nothing. -/
def resolveMailbox (root name : Bytes) : Bytes :=
  if root = [] then []
  else
    match mailboxName name with
    | none => []
    | some mb => if mb = ascii "INBOX" then root else h.folder root mb

/-- `cap_line`. -/
def capLine (s : Session) : Bytes :=
  ascii "IMAP4rev1 IDLE" ++
    if h.sslCtx ∧ ¬s.tls then ascii " STARTTLS LOGINDISABLED" else []

/-- A reply that counts as an error. -/
def failed (s : Session) (reply : Bytes) : Next :=
  let s := { s.send reply with errors := s.errors + 1 }
  if h.maxErrors ≤ s.errors then .close s else .go s

def startTls (s : Session) (tag : Bytes) : Next :=
  if s.tls then .go (s.send (tag ++ ascii " NO TLS already active\r\n"))
  else if !h.sslCtx then .go (s.send (tag ++ ascii " NO STARTTLS not configured\r\n"))
  else
    let s := s.send (tag ++ ascii " OK beginning TLS handshake\r\n")
    if h.handshake then
      .go { s with tls := true, authenticated := false, root := [], selected := [], messages := [] }
    else .close s

def login (s : Session) (tag args : Bytes) : Next :=
  if h.sslCtx ∧ ¬s.tls then
    .go (s.send (tag ++ ascii " NO [PRIVACYREQUIRED] STARTTLS required first\r\n"))
  else
    match h.auth (splitTwo args).1 (splitTwo args).2 with
    | some root =>
      .go ({ s with authenticated := true, root := root }.send (tag ++ ascii " OK LOGIN successful\r\n"))
    | none => failed h s (tag ++ ascii " NO LOGIN failed\r\n")

def isRecent (path : Bytes) : Bool := (breakOn (ascii "/new/") path).isSome

def select (s : Session) (tag cmd args : Bytes) : Next :=
  if !s.authenticated then .go (s.send (tag ++ ascii " NO LOGIN required first\r\n"))
  else if resolveMailbox h s.root args = [] then
    .go (s.send (tag ++ ascii " NO invalid mailbox name\r\n"))
  else
    let box := resolveMailbox h s.root args
    let messages := h.build box
    let access := if cmd = ascii "EXAMINE" then ascii "READ-ONLY" else ascii "READ-WRITE"
    .go ({ s with selected := box, messages := messages }.send
      (ascii "* " ++ intText messages.length ++ ascii " EXISTS\r\n* " ++
        intText (messages.filter isRecent).length ++ ascii " RECENT\r\n" ++
        ascii "* OK [UIDVALIDITY 1] UID validity\r\n" ++
        ascii "* FLAGS (\\Answered \\Flagged \\Deleted \\Seen \\Draft)\r\n" ++
        ascii "* OK [PERMANENTFLAGS (\\Seen \\Deleted)] permanent flags\r\n" ++
        tag ++ ascii " OK [" ++ access ++ ascii "] " ++ cmd ++ ascii " completed\r\n"))

/-- A command that reads the mailbox: LIST, LSUB, STATUS, FETCH, STORE, EXPUNGE, SEARCH. -/
def mailboxCommand (needsSelected : Bool) (s : Session) (tag cmd args : Bytes) : Next :=
  if !s.authenticated then .go (s.send (tag ++ ascii " NO LOGIN required first\r\n"))
  else if needsSelected ∧ s.selected = [] then
    .go (s.send (tag ++ ascii " NO SELECT required first\r\n"))
  else
    let (reply, messages) := h.answer tag cmd args s
    .go ({ s with messages := messages }.send reply)

def idle (s : Session) (tag : Bytes) : Next :=
  if !s.authenticated then .go (s.send (tag ++ ascii " NO LOGIN required first\r\n"))
  else if s.selected = [] then .go (s.send (tag ++ ascii " NO SELECT required first\r\n"))
  else .go { s.send (ascii "+ idling\r\n") with idling := some tag }

/-! ### APPEND -/

/-- The digits of a literal and whether it is announced with a plus. -/
def literalSize (text : Bytes) : Bytes × Bool :=
  if text.getLast? = some 0x2B then (text.dropLast, true) else (text, false)

def isDigit (c : UInt8) : Bool := 0x30 ≤ c && c ≤ 0x39

def digitsValue (s : Bytes) : Nat := s.foldl (fun n c => n * 10 + (c.toNat - 48)) 0

/-- The flags between the first parenthesis and the one that closes it. -/
def appendFlags (head : Bytes) : Bytes :=
  match breakOn [0x28] head with
  | none => []
  | some (_, rest) =>
    match breakOn [0x29] rest with
    | none => []
    | some (flags, _) => (words flags).flatMap maildirFlag

def append (s : Session) (tag args : Bytes) : Next :=
  if !s.authenticated then .go (s.send (tag ++ ascii " NO LOGIN required first\r\n"))
  else
    match cutLast 0x7B args with
    | none => .go (s.send (tag ++ ascii " BAD APPEND literal \x7bN\x7d required\r\n"))
    | some (head, tail) =>
      match cutLast 0x7D tail with
      | none => .go (s.send (tag ++ ascii " BAD APPEND literal \x7bN\x7d required\r\n"))
      | some (text, _) =>
        let (digits, nonsync) := literalSize text
        if digits = [] ∨ ¬digits.all isDigit then
          .go (s.send (tag ++ ascii " BAD APPEND invalid literal size\r\n"))
        else if 2 ^ 64 ≤ digitsValue digits then
          .go (s.send (tag ++ ascii " BAD APPEND literal size\r\n"))
        else if h.maxLiteral < digitsValue digits then
          .go (s.send (tag ++ ascii " NO [TOOBIG] APPEND message too large\r\n"))
        else
          let box := resolveMailbox h s.root ((words head).headD [])
          if box = [] then .go (s.send (tag ++ ascii " NO [TRYCREATE] invalid mailbox\r\n"))
          else
            let s := if nonsync then s else s.send (ascii "+ literal data expected\r\n")
            .literal s (!nonsync) (digitsValue digits) fun data =>
              if h.store box (appendFlags head) data then
                s.send (tag ++ ascii " OK [APPENDUID 1 1] APPEND completed\r\n")
              else s.send (tag ++ ascii " NO APPEND could not write\r\n")

/-! ### The loop -/

/-- The commands that the first milestone leaves out. -/
def unsupported : List Bytes :=
  [ascii "CREATE", ascii "DELETE", ascii "RENAME", ascii "SUBSCRIBE", ascii "UNSUBSCRIBE"]

def command (s : Session) (line : Bytes) : Next :=
  let (tag, cmd, args) := parseCommand line
  if tag = [] then failed h s (ascii "* BAD empty command\r\n")
  else if cmd = ascii "CAPABILITY" then
    .go (s.send (ascii "* CAPABILITY " ++ capLine h s ++ ascii "\r\n" ++ tag ++
      ascii " OK CAPABILITY completed\r\n"))
  else if cmd = ascii "STARTTLS" then startTls h s tag
  else if cmd = ascii "NOOP" then .go (s.send (tag ++ ascii " OK NOOP completed\r\n"))
  else if cmd = ascii "IDLE" then idle s tag
  else if cmd = ascii "LOGOUT" then
    .close (s.send (ascii "* BYE LOOK IMAP session closing\r\n" ++ tag ++
      ascii " OK LOGOUT completed\r\n"))
  else if cmd = ascii "LOGIN" then login h s tag args
  else if cmd = ascii "SELECT" ∨ cmd = ascii "EXAMINE" then select h s tag cmd args
  else if cmd = ascii "LIST" ∨ cmd = ascii "LSUB" ∨ cmd = ascii "STATUS" then
    mailboxCommand h false s tag cmd args
  else if cmd = ascii "FETCH" ∨ cmd = ascii "STORE" ∨ cmd = ascii "EXPUNGE" then
    mailboxCommand h true s tag cmd args
  else if cmd = ascii "APPEND" then append h s tag args
  else if cmd = ascii "UID" then
    .go (s.send (tag ++ ascii " NO [CANNOT] UID command not supported " ++ [0xE2, 0x80, 0x94] ++
      ascii " no persistent UID (Milestone 1). Use sequence-based FETCH/STORE/SEARCH.\r\n"))
  else if cmd ∈ unsupported then
    .go (s.send (tag ++ ascii " NO [CANNOT] " ++ cmd ++
      ascii " not supported (Milestone 1: only the current INBOX is read).\r\n"))
  else if cmd = ascii "SEARCH" then mailboxCommand h true s tag cmd args
  else failed h s (tag ++ ascii " BAD unknown command\r\n")

structure Config where
  session : Session
  wire : Wire

/-- The literal is read, and the rest of its line. -/
def readLiteral (sync : Bool) (size : Nat) (finish : Bytes → Session) (w : Wire) : Option Config :=
  match readExact size (if sync then goAhead w else w) with
  | none => none
  | some (data, w) => some ⟨finish data, (readLine h.maxLine [] w).2⟩

/-- A turn of the loop in `run_session`, or of the one that waits for DONE. -/
def turn (c : Config) : Option Config :=
  match readLine h.maxLine [] c.wire with
  | (none, _) => none
  | (some line, w) =>
    match c.session.idling with
    | some tag =>
      if upper line = ascii "DONE" then
        some ⟨{ c.session with idling := none }.send (tag ++ ascii " OK IDLE completed\r\n"), w⟩
      else none
    | none =>
      match command h c.session line with
      | .go s => some ⟨s, w⟩
      | .close _ => none
      | .literal _ sync size finish => readLiteral h sync size finish w

/-- The session before the first command. -/
def Session.start (implicitTls : Bool) : Session :=
  let s : Session := ⟨implicitTls, false, [], [], [], 0, none, []⟩
  s.send (ascii "* OK [CAPABILITY " ++ capLine h s ++ ascii "] LOOK IMAP ready\r\n")

/-- The configuration after some turns; each turn has its host. -/
def after (hosts : Nat → Host) (c : Config) : Nat → Option Config
  | 0 => some c
  | i + 1 => (after hosts c i).bind (turn (hosts i))

end Imap

end Look
