/-
The message files behind an IMAP session, and the commands that work on them.

A session of `run_session` reads a line and starts the command in it.  A command that works on
files goes on one file at a time, `build_messages` one directory at a time, and APPEND first
writes into `tmp`; between two such steps other processes may change the directories.  The
place in the code is the `Task`, the files are the `Disk`, and what else a step depends on is
its `Env`.  What happened is written down in `log`: the files that were touched, the answers
about a sequence number with the file they were made from, and the text that was sent.  STORE,
EXPUNGE and SEARCH send their answers together when they are done.  Writing to the client does
not fail here.
-/
import Look.Lib.AssocList
import Look.Net.Imap
import Look.Value
import Mathlib

namespace Look

namespace Maildir

open Http (Bytes lf lower crlfcrlf)
open Smtp (upper)
open Imap (cutLast words maildirFlag mailboxName parseCommand splitTwo isRecent literalSize isDigit
  digitsValue appendFlags unsupported)

local instance : LawfulBEq Bytes := inferInstance

/-! ## Files -/

inductive Sub where
  | cur
  | new
  | tmp
deriving DecidableEq

def Sub.text : Sub → Bytes
  | .cur => ascii "cur"
  | .new => ascii "new"
  | .tmp => ascii "tmp"

/-- The file `name` in a directory of the mailbox `box`. -/
structure File where
  box : Bytes
  sub : Sub
  name : Bytes
deriving DecidableEq

/-- `operator/` of paths. -/
def joinPath (dir name : Bytes) : Bytes :=
  if dir.getLast? = some 0x2F then dir ++ name else dir ++ 0x2F :: name

def File.path (f : File) : Bytes := joinPath (joinPath f.box f.sub.text) f.name

/-- What stands before the flags in a name. -/
def base (name : Bytes) : Bytes :=
  match breakOn (ascii ":2,") name with
  | none => name
  | some (b, _) => b

/-- `strchr` also finds the byte behind the text. -/
def isFlag (c : UInt8) : Bool := c = 0 || (ascii "DFPRST").contains c

/-- `maildir_flags`. -/
def maildirFlags (f : File) : Bytes :=
  match breakOn (ascii ":2,") f.name with
  | none => []
  | some (_, flags) => flags.filter isFlag

/-- `normalize_flags`. -/
def normalizeFlags (flags : Bytes) : Bytes := (ascii "DFPRST").filter flags.contains

/-- Where `apply_flags` moves a file. -/
def destination (f : File) (flags : Bytes) : File :=
  { f with
    sub := if f.sub = .new then .cur else f.sub
    name := base f.name ++ ascii ":2," ++ normalizeFlags flags }

/-- `maildir_to_imap_flags`. -/
def imapFlags (flags : Bytes) : Bytes :=
  let names := [(0x53, ascii "\\Seen"), (0x52, ascii "\\Answered"), (0x46, ascii "\\Flagged"),
    (0x54, ascii "\\Deleted"), (0x44, ascii "\\Draft")]
  ascii "(" ++ (ascii " ").intercalate ((names.filter fun p => flags.contains p.1).map Prod.snd) ++
    ascii ")"

/-- The files, with what they hold. -/
abbrev Disk := List (File × Bytes)

namespace Disk

def content (d : Disk) (f : File) : Option Bytes := AssocList.lookup f d

/-- The files of a directory. -/
def list (d : Disk) (box : Bytes) (sub : Sub) : List File :=
  (d.map Prod.fst).filter fun f => f.box = box ∧ f.sub = sub

def remove (d : Disk) (f : File) : Disk := d.filter fun p => p.1 ≠ f

def write (d : Disk) (f : File) (content : Bytes) : Disk := d.remove f ++ [(f, content)]

end Disk

/-- What a step depends on beside the session and the files. -/
structure Env where
  sslCtx : Bool
  handshake : Bool
  auth : Bytes → Bytes → Option Bytes
  isDirectory : Bytes → Bool
  /-- The directories in a directory. -/
  folders : Bytes → List Bytes
  /-- The system does not let this file be opened, moved or removed. -/
  refused : File → Bool
  /-- The name that APPEND makes up. -/
  unique : Bytes
  maxErrors : Nat
  maxLiteral : Nat

namespace Disk

variable (env : Env) (d : Disk)

def reachable (f : File) : Bool := (d.content f).isSome && !env.refused f

/-- `read_file_capped`. -/
def readCapped (f : File) : Option Bytes :=
  if env.refused f then none else (d.content f).filter fun raw => raw.length ≤ env.maxLiteral

/-- `fs::rename`. -/
def rename (f g : File) : Option Disk :=
  if env.refused f || env.refused g then none
  else (d.content f).map fun raw => (d.remove f).write g raw

end Disk

/-! ## Sessions -/

/-- The operator of STORE. -/
inductive Op where
  | set
  | add
  | del
deriving DecidableEq

structure StoreArgs where
  op : Op
  silent : Bool
  want : Bytes
deriving DecidableEq

/-- `Crit`. -/
structure Criterion where
  kw : Bytes
  a1 : Bytes
  a2 : Bytes
  lo : Nat
  hi : Nat
deriving DecidableEq

/-- What `build_messages` is called for. -/
inductive Purpose where
  | select (tag cmd : Bytes)
  | tick (tag : Bytes)
deriving DecidableEq

/-- The place in `run_session`. -/
inductive Task where
  | command
  | idle (tag : Bytes)
  | scanCur (p : Purpose)
  | scanNew (p : Purpose) (found : List File)
  | fetch (tag items : Bytes) (i hi : Nat)
  | store (tag : Bytes) (args : StoreArgs) (i hi : Nat) (out : Bytes)
  | expunge (tag : Bytes) (i : Nat) (out : Bytes)
  | search (tag : Bytes) (crits : List Criterion) (i : Nat) (out : Bytes)
  | literal (tag box flags : Bytes) (size : Nat)
  | write (tag box flags data : Bytes)
  | file (tag : Bytes) (tmp dest : File)
  | closed
deriving DecidableEq

inductive Event where
  | login (root : Bytes)
  | select (box : Bytes) (readOnly : Bool)
  | read (f : File)
  | rename (f g : File)
  | create (f : File)
  | remove (f : File)
  | answer (i : Nat) (f : File)
  | expunge (i : Nat)
  | reply (text : Bytes)
deriving DecidableEq

structure Session where
  tls : Bool
  authenticated : Bool
  root : Bytes
  selected : Bytes
  messages : List File
  errors : Nat
  task : Task
  log : List Event

namespace Session

def note (s : Session) (e : Event) : Session := { s with log := s.log ++ [e] }

def send (s : Session) (text : Bytes) : Session := s.note (.reply text)

/-- A reply, and the next command. -/
def done (s : Session) (text : Bytes) : Session := { s.send text with task := .command }

/-- A reply that counts as an error. -/
def failed (env : Env) (s : Session) (text : Bytes) : Session :=
  { s.send text with
    errors := s.errors + 1
    task := if env.maxErrors ≤ s.errors + 1 then .closed else .command }

end Session

/-! ## Parsing -/

/-- The lambda `num` of `parse_seqset`. -/
def seqNumber (count : Nat) (t : Bytes) (default : Nat) : Nat :=
  if t = ascii "*" then count
  else
    match stoll (chars t) with
    | .ok v _ => if v.toInt < 1 then default else v.toInt.toNat
    | _ => default

/-- `parse_seqset`. -/
def parseSeqset (s : Bytes) (count : Nat) : Option (Nat × Nat) :=
  if count = 0 then none
  else
    let (a, b) :=
      match breakOn [0x3A] s with
      | none => (seqNumber count s 1, seqNumber count s 1)
      | some (x, y) => (seqNumber count x 1, seqNumber count y count)
    let lo := max (min a b) 1
    let hi := min (max a b) count
    if lo ≤ hi then some (lo, hi) else none

/-- `find` of a text. -/
def finds (pat s : Bytes) : Bool := pat = [] || (breakOn pat s).isSome

/-- `split_header_body`. -/
def splitHeaderBody (msg : Bytes) : Bytes × Bytes :=
  match breakOn crlfcrlf msg with
  | some (hdr, body) => (hdr ++ ascii "\r\n", body)
  | none =>
    match breakOn [lf, lf] msg with
    | some (hdr, body) => (hdr ++ [lf], body)
    | none => (msg, [])

/-- The arguments of STORE behind the sequence set. -/
def storeArgs (rest : Bytes) : StoreArgs :=
  let flags :=
    match breakOn [0x28] rest with
    | none => []
    | some (_, inner) => ((cutLast 0x29 inner).map Prod.fst).getD []
  { op := if rest.head? = some 0x2B then .add else if rest.head? = some 0x2D then .del else .set
    silent := finds (ascii ".SILENT") (upper rest)
    want := (words flags).flatMap maildirFlag }

/-- The flags that a message gets. -/
def StoreArgs.apply (a : StoreArgs) (cur : Bytes) : Bytes :=
  match a.op with
  | .set => a.want
  | .add => a.want.foldl (fun nf c => if nf.contains c then nf else nf ++ [c]) cur
  | .del => a.want.foldl (fun nf c => nf.erase c) cur

/-- A word of SEARCH, or what stands between two quotes. -/
def searchToken (c : UInt8) (rest : Bytes) : Bytes × Bytes :=
  if c = Imap.quote then (breakOn [Imap.quote] rest).getD (rest, [])
  else ((c :: rest).takeWhile (· ≠ 0x20), (c :: rest).dropWhile (· ≠ 0x20))

def searchTokens : Nat → Bytes → List Bytes
  | 0, _ => []
  | n + 1, args =>
    match args.dropWhile (· = 0x20) with
    | [] => []
    | c :: rest => (searchToken c rest).1 :: searchTokens n (searchToken c rest).2

def flagKeys : List Bytes :=
  [ascii "ALL", ascii "RECENT", ascii "NEW", ascii "OLD", ascii "SEEN", ascii "UNSEEN",
    ascii "DELETED", ascii "UNDELETED", ascii "FLAGGED", ascii "UNFLAGGED", ascii "ANSWERED",
    ascii "UNANSWERED", ascii "DRAFT", ascii "UNDRAFT"]

def textKeys : List Bytes :=
  [ascii "FROM", ascii "TO", ascii "CC", ascii "SUBJECT", ascii "BODY", ascii "TEXT"]

def seqCriterion (count : Nat) (set : Bytes) : Criterion :=
  let (lo, hi) := (parseSeqset set count).getD (1, 0)
  ⟨ascii "SEQ", [], [], lo, hi⟩

/-- The criteria of SEARCH; nothing when they cannot be parsed. -/
def criteria (count : Nat) : List Bytes → Option (List Criterion)
  | [] => some []
  | t :: rest =>
    if upper t = ascii "CHARSET" then
      match rest with
      | [] => some []
      | _ :: rest => criteria count rest
    else if upper t ∈ flagKeys then (criteria count rest).map (⟨upper t, [], [], 0, 0⟩ :: ·)
    else if upper t ∈ textKeys then
      match rest with
      | [] => none
      | a :: rest => (criteria count rest).map (⟨upper t, lower a, [], 0, 0⟩ :: ·)
    else if upper t = ascii "HEADER" then
      match rest with
      | a :: b :: rest => (criteria count rest).map (⟨upper t, lower a, lower b, 0, 0⟩ :: ·)
      | _ => none
    else if upper t = ascii "UID" then
      match rest with
      | [] => some [seqCriterion count []]
      | a :: rest => (criteria count rest).map (seqCriterion count a :: ·)
    else if (t.head?.map fun c => isDigit c || c = 0x2A).getD false then
      (criteria count rest).map (seqCriterion count t :: ·)
    else none

/-- The criterion looks into the message. -/
def Criterion.needsContent (c : Criterion) : Bool := c.kw ∈ textKeys || c.kw = ascii "HEADER"

/-- The lambda `hdr_field`. -/
def hdrField (hdr field : Bytes) : Bytes :=
  let want := field ++ ascii ":"
  (hdr.splitOn lf).flatMap fun line =>
    if lower (line.take want.length) = want then lower (line.drop want.length) ++ [lf] else []

/-- The message `i` meets the criterion. -/
def Criterion.holds (c : Criterion) (i : Nat) (f : File) (raw : Bytes) : Bool :=
  let fl := maildirFlags f
  let recent := isRecent f.path
  let (hdr, body) := splitHeaderBody raw
  if c.kw = ascii "ALL" then true
  else if c.kw = ascii "RECENT" then recent
  else if c.kw = ascii "NEW" then recent && !fl.contains 0x53
  else if c.kw = ascii "OLD" then !recent
  else if c.kw = ascii "SEEN" then fl.contains 0x53
  else if c.kw = ascii "UNSEEN" then !fl.contains 0x53
  else if c.kw = ascii "DELETED" then fl.contains 0x54
  else if c.kw = ascii "UNDELETED" then !fl.contains 0x54
  else if c.kw = ascii "FLAGGED" then fl.contains 0x46
  else if c.kw = ascii "UNFLAGGED" then !fl.contains 0x46
  else if c.kw = ascii "ANSWERED" then fl.contains 0x52
  else if c.kw = ascii "UNANSWERED" then !fl.contains 0x52
  else if c.kw = ascii "DRAFT" then fl.contains 0x44
  else if c.kw = ascii "UNDRAFT" then !fl.contains 0x44
  else if c.kw = ascii "SEQ" then c.lo ≤ i && i ≤ c.hi
  else if c.kw = ascii "FROM" then finds c.a1 (hdrField hdr (ascii "from"))
  else if c.kw = ascii "TO" then finds c.a1 (hdrField hdr (ascii "to"))
  else if c.kw = ascii "CC" then finds c.a1 (hdrField hdr (ascii "cc"))
  else if c.kw = ascii "SUBJECT" then finds c.a1 (hdrField hdr (ascii "subject"))
  else if c.kw = ascii "BODY" then finds c.a1 (lower body)
  else if c.kw = ascii "TEXT" then finds c.a1 (lower raw)
  else if c.kw = ascii "HEADER" then finds c.a2 (hdrField hdr c.a1)
  else true

/-- What FETCH sends about a message. -/
def fetchReply (items : Bytes) (i : Nat) (f : File) (raw : Bytes) : Bytes :=
  let (hdr, body) := splitHeaderBody raw
  let wants pat := finds (ascii pat) items
  let flags := if wants "FLAGS" then [ascii "FLAGS " ++ imapFlags (maildirFlags f)] else []
  let size := if wants "RFC822.SIZE" then [ascii "RFC822.SIZE " ++ intText raw.length] else []
  let (name, literal) :=
    if wants "BODY[]" || (wants "RFC822" && !wants "RFC822.") then ([ascii "BODY[]"], raw)
    else if wants "BODY[HEADER]" || wants "RFC822.HEADER" then ([ascii "BODY[HEADER]"], hdr)
    else if wants "BODY[TEXT]" then ([ascii "BODY[TEXT]"], body)
    else ([], [])
  ascii "* " ++ intText i ++ ascii " FETCH (" ++
    (ascii " ").intercalate (flags ++ size ++ name) ++
    (if name = [] then []
      else ascii " \x7b" ++ intText literal.length ++ ascii "\x7d\r\n" ++ literal) ++
    ascii ")\r\n"

/-! ## The commands -/

/-- The test `within` of `resolve_mailbox`. -/
def within (rs ts : Bytes) : Bool :=
  rs.isPrefixOf ts &&
    (ts.length = rs.length || ts[rs.length]? = some 0x2F || ts[rs.length]? = some 0x5C)

section Commands

variable (canonical : Bytes → Option Bytes) (env : Env) (d : Disk)

/-- `resolve_mailbox`: the path, or nothing. -/
def resolveMailbox (root name : Bytes) : Bytes :=
  if root = [] then []
  else
    match mailboxName name with
    | none => []
    | some mb =>
      if mb = ascii "INBOX" then root
      else
        match canonical root, canonical (joinPath root (0x2E :: mb)) with
        | some rs, some ts => if within rs ts && env.isDirectory ts then ts else []
        | _, _ => []

namespace Session

/-- `cap_line`. -/
def capLine (s : Session) : Bytes :=
  ascii "IMAP4rev1 IDLE" ++
    if env.sslCtx ∧ ¬s.tls then ascii " STARTTLS LOGINDISABLED" else []

def startTls (s : Session) (tag : Bytes) : Session :=
  if s.tls then s.done (tag ++ ascii " NO TLS already active\r\n")
  else if !env.sslCtx then s.done (tag ++ ascii " NO STARTTLS not configured\r\n")
  else
    let s := s.done (tag ++ ascii " OK beginning TLS handshake\r\n")
    if env.handshake then
      { s with tls := true, authenticated := false, root := [], selected := [], messages := [] }
    else { s with task := .closed }

def login (s : Session) (tag args : Bytes) : Session :=
  if env.sslCtx ∧ ¬s.tls then
    s.done (tag ++ ascii " NO [PRIVACYREQUIRED] STARTTLS required first\r\n")
  else
    match env.auth (splitTwo args).1 (splitTwo args).2 with
    | some root =>
      ({ s.note (.login root) with authenticated := true, root := root }).done
        (tag ++ ascii " OK LOGIN successful\r\n")
    | none => s.failed env (tag ++ ascii " NO LOGIN failed\r\n")

/-- The command is for a client that has logged in. -/
def authenticatedDo (s : Session) (tag : Bytes) (act : Session) : Session :=
  if s.authenticated then act else s.done (tag ++ ascii " NO LOGIN required first\r\n")

/-- The command is for a client that has chosen a mailbox. -/
def selectedDo (s : Session) (tag : Bytes) (act : Session) : Session :=
  s.authenticatedDo tag
    (if s.selected = [] then s.done (tag ++ ascii " NO SELECT required first\r\n") else act)

/-- SELECT and EXAMINE until `build_messages`. -/
def select (s : Session) (tag cmd args : Bytes) : Session :=
  s.authenticatedDo tag
    (if resolveMailbox canonical env s.root args = [] then
      s.done (tag ++ ascii " NO invalid mailbox name\r\n")
    else
      { s with
        selected := resolveMailbox canonical env s.root args
        task := .scanCur (.select tag cmd) })

def idle (s : Session) (tag : Bytes) : Session :=
  s.selectedDo tag { s.send (ascii "+ idling\r\n") with task := .idle tag }

def fetch (s : Session) (tag args : Bytes) : Session :=
  s.selectedDo tag <|
    match breakOn [0x20] args with
    | none => s.done (tag ++ ascii " BAD FETCH argument\r\n")
    | some (set, items) =>
      if finds (ascii "UID") (upper items) then
        s.done (tag ++ ascii " NO [CANNOT] UID not supported " ++ [0xE2, 0x80, 0x94] ++
          ascii " no persistent UID (Milestone 1). Use sequence numbers.\r\n")
      else
        match parseSeqset set s.messages.length with
        | none => s.done (tag ++ ascii " OK FETCH completed (empty)\r\n")
        | some (lo, hi) => { s with task := .fetch tag (upper items) lo hi }

def store (s : Session) (tag args : Bytes) : Session :=
  s.selectedDo tag <|
    match breakOn [0x20] args with
    | none => s.done (tag ++ ascii " BAD STORE argument\r\n")
    | some (set, rest) =>
      match parseSeqset set s.messages.length with
      | none => s.done (tag ++ ascii " OK STORE completed (empty)\r\n")
      | some (lo, hi) => { s with task := .store tag (storeArgs rest) lo hi [] }

def expunge (s : Session) (tag : Bytes) : Session :=
  s.selectedDo tag { s with task := .expunge tag s.messages.length [] }

def search (s : Session) (tag args : Bytes) : Session :=
  s.selectedDo tag <|
    match criteria s.messages.length (searchTokens args.length args) with
    | none => s.done (tag ++ ascii " BAD SEARCH criteria could not be parsed\r\n")
    | some crits => { s with task := .search tag crits 1 (ascii "* SEARCH") }

/-- APPEND until the literal. -/
def append (s : Session) (tag args : Bytes) : Session :=
  s.authenticatedDo tag <|
    match cutLast 0x7B args with
    | none => s.done (tag ++ ascii " BAD APPEND literal \x7bN\x7d required\r\n")
    | some (head, tail) =>
      match cutLast 0x7D tail with
      | none => s.done (tag ++ ascii " BAD APPEND literal \x7bN\x7d required\r\n")
      | some (text, _) =>
        let (digits, nonsync) := literalSize text
        let box := resolveMailbox canonical env s.root ((words head).headD [])
        if digits = [] ∨ ¬digits.all isDigit then
          s.done (tag ++ ascii " BAD APPEND invalid literal size\r\n")
        else if 2 ^ 64 ≤ digitsValue digits then
          s.done (tag ++ ascii " BAD APPEND literal size\r\n")
        else if env.maxLiteral < digitsValue digits then
          s.done (tag ++ ascii " NO [TOOBIG] APPEND message too large\r\n")
        else if box = [] then s.done (tag ++ ascii " NO [TRYCREATE] invalid mailbox\r\n")
        else
          let s := if nonsync then s else s.send (ascii "+ literal data expected\r\n")
          { s with task := .literal tag box (appendFlags head) (digitsValue digits) }

/-- LIST and LSUB. -/
def list (s : Session) (tag cmd : Bytes) : Session :=
  let boxes := ascii "INBOX" :: (env.folders s.root).filterMap fun n =>
    if 1 < n.length ∧ n.head? = some 0x2E ∧ n ≠ ascii ".." then some (n.drop 1) else none
  s.authenticatedDo tag <| s.done <|
    (boxes.flatMap fun b => ascii "* " ++ cmd ++ ascii " (\\HasNoChildren) \"/\" \"" ++ b ++
      ascii "\"\r\n") ++ tag ++ ascii " OK " ++ cmd ++ ascii " completed\r\n"

def status (s : Session) (tag args : Bytes) : Session :=
  let name := args.takeWhile (· ≠ 0x20)
  let box := resolveMailbox canonical env s.root name
  let cur := (d.list box .cur).length
  let new := (d.list box .new).length
  s.authenticatedDo tag <|
    if box = [] then s.done (tag ++ ascii " NO invalid mailbox\r\n")
    else
      s.done (ascii "* STATUS \"" ++ Imap.unquote name ++ ascii "\" (MESSAGES " ++
        intText (new + cur) ++ ascii " RECENT " ++ intText new ++ ascii ")\r\n" ++
        tag ++ ascii " OK STATUS completed\r\n")

/-- The command in a line. -/
def command (s : Session) (line : Bytes) : Session :=
  let (tag, cmd, args) := parseCommand line
  if tag = [] then s.failed env (ascii "* BAD empty command\r\n")
  else if cmd = ascii "CAPABILITY" then
    s.done (ascii "* CAPABILITY " ++ s.capLine env ++ ascii "\r\n" ++ tag ++
      ascii " OK CAPABILITY completed\r\n")
  else if cmd = ascii "STARTTLS" then s.startTls env tag
  else if cmd = ascii "NOOP" then s.done (tag ++ ascii " OK NOOP completed\r\n")
  else if cmd = ascii "IDLE" then s.idle tag
  else if cmd = ascii "LOGOUT" then
    { s.send (ascii "* BYE LOOK IMAP session closing\r\n" ++ tag ++
        ascii " OK LOGOUT completed\r\n") with task := .closed }
  else if cmd = ascii "LOGIN" then s.login env tag args
  else if cmd = ascii "SELECT" ∨ cmd = ascii "EXAMINE" then s.select canonical env tag cmd args
  else if cmd = ascii "LIST" ∨ cmd = ascii "LSUB" then s.list env tag cmd
  else if cmd = ascii "STATUS" then s.status canonical env d tag args
  else if cmd = ascii "FETCH" then s.fetch tag args
  else if cmd = ascii "STORE" then s.store tag args
  else if cmd = ascii "EXPUNGE" then s.expunge tag
  else if cmd = ascii "APPEND" then s.append canonical env tag args
  else if cmd = ascii "UID" then
    s.done (tag ++ ascii " NO [CANNOT] UID command not supported " ++ [0xE2, 0x80, 0x94] ++
      ascii " no persistent UID (Milestone 1). Use sequence-based FETCH/STORE/SEARCH.\r\n")
  else if cmd ∈ unsupported then
    s.done (tag ++ ascii " NO [CANNOT] " ++ cmd ++
      ascii " not supported (Milestone 1: only the current INBOX is read).\r\n")
  else if cmd = ascii "SEARCH" then s.search tag args
  else s.failed env (tag ++ ascii " BAD unknown command\r\n")

/-- A line in IDLE. -/
def idleLine (s : Session) (tag line : Bytes) : Session :=
  if upper line = ascii "DONE" then s.done (tag ++ ascii " OK IDLE completed\r\n")
  else
    { s.send (tag ++ ascii " BAD DONE required to end IDLE\r\n") with task := .closed }

end Session

/-! ## The steps on files -/

/-- What SELECT and IDLE send about the number of messages. -/
def countText (messages : List File) : Bytes :=
  ascii "* " ++ intText messages.length ++ ascii " EXISTS\r\n* " ++
    intText (messages.filter fun f => isRecent f.path).length ++ ascii " RECENT\r\n"

/-- The order in which `build_messages` returns the files. -/
def sorted (files : List File) : List File := files.insertionSort fun f g => f.path ≤ g.path

/-- `apply_flags`: the file under its new name. -/
def applyFlags (f : File) (flags : Bytes) : Option (File × Disk) :=
  if destination f flags = f then some (f, d)
  else (d.rename env f (destination f flags)).map fun d => (destination f flags, d)

namespace Session

/-- `build_messages` has returned. -/
def scanned (s : Session) (fresh : List File) : Purpose → Session
  | .select tag cmd =>
    let access := if cmd = ascii "EXAMINE" then ascii "READ-ONLY" else ascii "READ-WRITE"
    ({ s with messages := fresh }.note (.select s.selected (cmd = ascii "EXAMINE"))).done
      (countText fresh ++ ascii "* OK [UIDVALIDITY 1] UID validity\r\n" ++
        ascii "* FLAGS (\\Answered \\Flagged \\Deleted \\Seen \\Draft)\r\n" ++
        ascii "* OK [PERMANENTFLAGS (\\Seen \\Deleted)] permanent flags\r\n" ++
        tag ++ ascii " OK [" ++ access ++ ascii "] " ++ cmd ++ ascii " completed\r\n")
  | .tick tag =>
    let added := fresh.filter (· ∉ s.messages)
    let s := { s with messages := s.messages ++ added, task := .idle tag }
    if added = [] then s else s.send (countText s.messages)

/-- The message that a loop from `i` to `hi` comes to. -/
def next (s : Session) (i hi : Nat) : Option File :=
  if i ≤ hi then s.messages[i - 1]? else none

def fetchOne (s : Session) (tag items : Bytes) (i hi : Nat) (f : File) : Session :=
  let s := { s with task := .fetch tag items (i + 1) hi }
  match d.readCapped env f with
  | none => s
  | some raw => ((s.note (.read f)).note (.answer i f)).send (fetchReply items i f raw)

def storeOne (s : Session) (tag : Bytes) (args : StoreArgs) (i hi : Nat) (out : Bytes) (f : File) :
    Session × Disk :=
  let nf := args.apply (maildirFlags f)
  match applyFlags env d f nf with
  | none => ({ s with task := .store tag args (i + 1) hi out }, d)
  | some (g, d) =>
    let s := { s with messages := s.messages.set (i - 1) g }
    let s := if g = f then s else s.note (.rename f g)
    if args.silent then ({ s with task := .store tag args (i + 1) hi out }, d)
    else
      let out := out ++ ascii "* " ++ intText i ++ ascii " FETCH (FLAGS " ++
        imapFlags (normalizeFlags nf) ++ ascii ")\r\n"
      ({ s.note (.answer i g) with task := .store tag args (i + 1) hi out }, d)

/-- EXPUNGE comes to the message `i + 1`. -/
def expungeOne (s : Session) (tag : Bytes) (i : Nat) (out : Bytes) (f : File) : Session × Disk :=
  if (maildirFlags f).contains 0x54 ∧ ¬env.refused f then
    let s := { s with messages := s.messages.eraseIdx i }
    let s := if (d.content f).isSome then s.note (.remove f) else s
    let out := out ++ ascii "* " ++ intText (i + 1) ++ ascii " EXPUNGE\r\n"
    ({ s.note (.expunge (i + 1)) with task := .expunge tag i out }, d.remove f)
  else ({ s with task := .expunge tag i out }, d)

def searchOne (s : Session) (tag : Bytes) (crits : List Criterion) (i : Nat) (out : Bytes)
    (f : File) : Session :=
  let found (s : Session) (raw : Bytes) : Session :=
    if crits.all fun c => c.holds i f raw then
      { s.note (.answer i f) with task := .search tag crits (i + 1) (out ++ ascii " " ++ intText i) }
    else { s with task := .search tag crits (i + 1) out }
  if crits.any Criterion.needsContent then
    match d.readCapped env f with
    | none => { s with task := .search tag crits (i + 1) out }
    | some raw => found (s.note (.read f)) raw
  else found s []

/-- `maildir_append` writes the file in `tmp`. -/
def writeTmp (s : Session) (tag box flags data : Bytes) : Session × Disk :=
  let tmp : File := ⟨box, .tmp, env.unique⟩
  let nf := normalizeFlags flags
  let dest : File :=
    if nf = [] then ⟨box, .new, env.unique⟩ else ⟨box, .cur, env.unique ++ ascii ":2," ++ nf⟩
  if env.refused tmp then (s.done (tag ++ ascii " NO APPEND could not write\r\n"), d)
  else ({ s.note (.create tmp) with task := .file tag tmp dest }, d.write tmp data)

/-- `maildir_append` moves it to its place. -/
def fileTmp (s : Session) (tag : Bytes) (tmp dest : File) : Session × Disk :=
  match d.rename env tmp dest with
  | some d =>
    ((s.note (.rename tmp dest)).done (tag ++ ascii " OK [APPENDUID 1 1] APPEND completed\r\n"), d)
  | none =>
    let reply := tag ++ ascii " NO APPEND could not write\r\n"
    if d.reachable env tmp then ((s.note (.remove tmp)).done reply, d.remove tmp)
    else (s.done reply, d)

/-- The next step of the command that is going on. -/
def work (s : Session) : Option (Session × Disk) :=
  match s.task with
  | .scanCur p => some ({ s with task := .scanNew p (d.list s.selected .cur) }, d)
  | .scanNew p found => some (s.scanned (sorted (found ++ d.list s.selected .new)) p, d)
  | .fetch tag items i hi =>
    match s.next i hi with
    | none => some (s.done (tag ++ ascii " OK FETCH completed\r\n"), d)
    | some f => some (s.fetchOne env d tag items i hi f, d)
  | .store tag args i hi out =>
    match s.next i hi with
    | none => some (s.done (out ++ tag ++ ascii " OK STORE completed\r\n"), d)
    | some f => some (s.storeOne env d tag args i hi out f)
  | .expunge tag (i + 1) out =>
    match s.messages[i]? with
    | none => none
    | some f => some (s.expungeOne env d tag i out f)
  | .expunge tag 0 out => some (s.done (out ++ tag ++ ascii " OK EXPUNGE completed\r\n"), d)
  | .search tag crits i out =>
    match s.next i s.messages.length with
    | none =>
      some (s.done (out ++ ascii "\r\n" ++ tag ++ ascii " OK SEARCH completed\r\n"), d)
    | some f => some (s.searchOne env d tag crits i out f, d)
  | .write tag box flags data => some (s.writeTmp env d tag box flags data)
  | .file tag tmp dest => some (s.fileTmp env d tag tmp dest)
  | _ => none

end Session

/-- What makes a session go on. -/
inductive Input where
  | line (l : Bytes)
  /-- The literal of APPEND, and the rest of its line. -/
  | data (s : Bytes)
  /-- Nothing came from the client for as long as IDLE waits. -/
  | tick
  | work
  /-- The connection is lost, or the server stops. -/
  | hangup

/-- One step of a session. -/
def Session.step (s : Session) : Input → Option (Session × Disk)
  | .line l =>
    match s.task with
    | .command => some (s.command canonical env d l, d)
    | .idle tag => some (s.idleLine tag l, d)
    | _ => none
  | .data bytes =>
    match s.task with
    | .literal tag box flags size =>
      if bytes.length = size then some ({ s with task := .write tag box flags bytes }, d) else none
    | _ => none
  | .tick =>
    match s.task with
    | .idle tag => some ({ s with task := .scanCur (.tick tag) }, d)
    | _ => none
  | .work => s.work env d
  | .hangup => some ({ s with task := .closed }, d)

/-- The session before the first command. -/
def Session.start (implicitTls : Bool) : Session :=
  let s : Session := ⟨implicitTls, false, [], [], [], 0, .command, []⟩
  s.send (ascii "* OK [CAPABILITY " ++ s.capLine env ++ ascii "] LOOK IMAP ready\r\n")


/-! ### What a line begins -/

/-- The loops over the messages. -/
def Task.isLoop : Task → Bool
  | .fetch _ _ _ _ => true
  | .store _ _ _ _ _ => true
  | .expunge _ _ _ => true
  | .search _ _ _ _ => true
  | _ => false

variable {canonical env d} {s : Session}

/-- What a line can make of a session. -/
inductive Begins (canonical : Bytes → Option Bytes) (env : Env) (s : Session) : Session → Prop
  | reply (text : Bytes) (errors : Nat) (task : Task) (htask : task = .command ∨ task = .closed) :
    Begins canonical env s { s.send text with errors := errors, task := task }
  | startTls (text : Bytes) :
    Begins canonical env s
      { s.send text with
        tls := true, authenticated := false, root := [], selected := [], messages := []
        task := .command }
  | login (root text : Bytes) :
    Begins canonical env s
      { (s.note (.login root)).send text with
        authenticated := true, root := root, task := .command }
  | select (name tag cmd : Bytes) (hauth : s.authenticated = true)
      (hbox : resolveMailbox canonical env s.root name ≠ []) :
    Begins canonical env s
      { s with
        selected := resolveMailbox canonical env s.root name
        task := .scanCur (.select tag cmd) }
  | idle (text tag : Bytes) (hselected : s.selected ≠ []) :
    Begins canonical env s { s.send text with task := .idle tag }
  | loop (task : Task) (hloop : task.isLoop = true) :
    Begins canonical env s { s with task := task }
  | literal (name tag flags : Bytes) (size : Nat) (log : List Event) (hauth : s.authenticated = true)
      (hbox : resolveMailbox canonical env s.root name ≠ [])
      (hlog : log = s.log ∨ ∃ text, log = s.log ++ [.reply text]) :
    Begins canonical env s
      { s with task := .literal tag (resolveMailbox canonical env s.root name) flags size, log := log }

theorem Begins.done (text : Bytes) : Begins canonical env s (s.done text) :=
  .reply text s.errors .command (Or.inl rfl)

theorem Begins.failed (text : Bytes) : Begins canonical env s (s.failed env text) := by
  refine .reply text (s.errors + 1) _ ?_
  split
  · exact Or.inr rfl
  · exact Or.inl rfl

theorem Begins.authenticatedDo {tag : Bytes} {act : Session}
    (h : s.authenticated = true → Begins canonical env s act) :
    Begins canonical env s (s.authenticatedDo tag act) := by
  rw [Session.authenticatedDo]
  split
  · rename_i hauth
    exact h hauth
  · exact .done _

theorem Begins.selectedDo {tag : Bytes} {act : Session}
    (h : s.selected ≠ [] → Begins canonical env s act) :
    Begins canonical env s (s.selectedDo tag act) := by
  refine .authenticatedDo fun _ => ?_
  split
  · exact .done _
  · rename_i hselected
    exact h hselected

theorem begins_startTls (tag : Bytes) : Begins canonical env s (s.startTls env tag) := by
  rw [Session.startTls]
  split
  · exact .done _
  · split
    · exact .done _
    · dsimp only
      split
      · exact .startTls _
      · exact .reply _ s.errors .closed (Or.inr rfl)

theorem begins_login (tag args : Bytes) : Begins canonical env s (s.login env tag args) := by
  rw [Session.login]
  split
  · exact .done _
  · split
    · exact .login _ _
    · exact .failed _

theorem begins_select (tag cmd args : Bytes) :
    Begins canonical env s (s.select canonical env tag cmd args) := by
  refine .authenticatedDo fun hauth => ?_
  split
  · exact .done _
  · rename_i hbox
    exact .select args tag cmd hauth hbox

theorem begins_fetch (tag args : Bytes) : Begins canonical env s (s.fetch tag args) := by
  refine .selectedDo fun _ => ?_
  split
  · exact .done _
  · split
    · exact .done _
    · split
      · exact .done _
      · exact .loop _ rfl

theorem begins_store (tag args : Bytes) : Begins canonical env s (s.store tag args) := by
  refine .selectedDo fun _ => ?_
  split
  · exact .done _
  · split
    · exact .done _
    · exact .loop _ rfl

theorem begins_search (tag args : Bytes) : Begins canonical env s (s.search tag args) := by
  refine .selectedDo fun _ => ?_
  split
  · exact .done _
  · exact .loop _ rfl

theorem begins_append (tag args : Bytes) :
    Begins canonical env s (s.append canonical env tag args) := by
  refine .authenticatedDo fun hauth => ?_
  split
  · exact .done _
  · split
    · exact .done _
    · dsimp only
      split
      · exact .done _
      · split
        · exact .done _
        · split
          · exact .done _
          · split
            · exact .done _
            · rename_i hbox
              split
              · exact .literal _ tag _ _ _ hauth hbox (Or.inl rfl)
              · exact .literal _ tag _ _ _ hauth hbox (Or.inr ⟨_, rfl⟩)

theorem begins_status (tag args : Bytes) :
    Begins canonical env s (s.status canonical env d tag args) := by
  refine .authenticatedDo fun _ => ?_
  split <;> exact .done _

theorem Begins.ite {c : Prop} [Decidable c] {a b : Session} (ha : Begins canonical env s a)
    (hb : Begins canonical env s b) : Begins canonical env s (if c then a else b) := by
  split
  · exact ha
  · exact hb

/-- The commands in the order in which `run_session` asks for them. -/
theorem begins_command (line : Bytes) :
    Begins canonical env s (s.command canonical env d line) := by
  rw [Session.command]
  dsimp only
  refine .ite (.failed _) <| .ite (.done _) <| .ite (begins_startTls _) <| .ite (.done _) ?_
  refine .ite (.selectedDo fun hselected => .idle _ _ hselected) ?_
  refine .ite (.reply _ s.errors .closed (Or.inr rfl)) ?_
  refine .ite (begins_login _ _) <| .ite (begins_select _ _ _) ?_
  refine .ite (.authenticatedDo fun _ => .done _) <| .ite (begins_status _ _) ?_
  refine .ite (begins_fetch _ _) <| .ite (begins_store _ _) ?_
  refine .ite (.selectedDo fun _ => .loop _ rfl) <| .ite (begins_append _ _) ?_
  exact .ite (.done _) <| .ite (.done _) <| .ite (begins_search _ _) (.failed _)

theorem begins_idleLine (tag line : Bytes) : Begins canonical env s (s.idleLine tag line) := by
  rw [Session.idleLine]
  split
  · exact .done _
  · exact .reply _ s.errors .closed (Or.inr rfl)

/-- A mailbox name leads to the root or into its real path. -/
def InsideRoot (canonical : Bytes → Option Bytes) (root box : Bytes) : Prop :=
  box = root ∨ ∃ rs, canonical root = some rs ∧ within rs box = true

theorem insideRoot_resolveMailbox {root name : Bytes}
    (h : resolveMailbox canonical env root name ≠ []) :
    InsideRoot canonical root (resolveMailbox canonical env root name) := by
  rw [resolveMailbox.eq_def] at h ⊢
  split at h
  · exact absurd rfl h
  rename_i hroot
  rw [if_neg hroot]
  split at h
  · exact absurd rfl h
  split at h
  · exact Or.inl (if_pos ‹_›)
  rename_i hinbox
  rw [if_neg hinbox]
  split at h
  · rename_i rs ts hrs hts
    split at h
    · rename_i hwithin
      rw [if_pos hwithin]
      rw [Bool.and_eq_true] at hwithin
      exact Or.inr ⟨rs, hrs, hwithin.1⟩
    · exact absurd rfl h
  · exact absurd rfl h

end Commands

end Maildir

end Look
