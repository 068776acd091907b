/-
`http_parse_request` and the framing checks of `handle_connection`.

The request line and the header lines are the lines of the head, which ends where
the first empty line begins.  The source walks over the head with positions; the
model walks over the lines themselves.  The head has no empty line, so the last
line ends where the head ends.
-/
import Look.Lib.AssocList
import Look.Lib.Find

namespace Look

namespace Http

abbrev Bytes := List UInt8

def sp : UInt8 := 32
def tab : UInt8 := 9
def cr : UInt8 := 13
def lf : UInt8 := 10
def colon : UInt8 := 58

def crlf : Bytes := [13, 10]
def crlfcrlf : Bytes := [13, 10, 13, 10]

/-- `tolower` in the C locale. -/
def toLower (b : UInt8) : UInt8 := if 65 ≤ b ∧ b ≤ 90 then b + 32 else b

def lower (s : Bytes) : Bytes := s.map toLower

def isBlank (b : UInt8) : Bool := b == sp || b == tab

/-- The value without the blanks around it. -/
def trim (s : Bytes) : Bytes := ((s.dropWhile isBlank).reverse.dropWhile isBlank).reverse

theorem trim_of_notBlank {s : Bytes} (h : ∀ b ∈ s, isBlank b = false) : trim s = s := by
  have hdrop : ∀ t : Bytes, (∀ b ∈ t, isBlank b = false) → t.dropWhile isBlank = t := by
    intro t ht
    cases t with
    | nil => rfl
    | cons b t => rw [List.dropWhile_cons, ht b List.mem_cons_self, if_neg Bool.false_ne_true]
  rw [trim, hdrop s h, hdrop _ fun b hb => h b (List.mem_reverse.mp hb), List.reverse_reverse]

def contentLength : Bytes := ascii "content-length"
def transferEncoding : Bytes := ascii "transfer-encoding"

/-- The header fields: the names in lower case, the values without blanks around
them. -/
abbrev Headers := List (Bytes × Bytes)

/-- `HttpRequest`; the address of the peer is not part of the stream. -/
structure Request where
  method : Bytes
  path : Bytes
  queryString : Bytes
  version : Bytes
  headers : Headers
  body : Bytes
  upgradeWebsocket : Bool
  wsKey : Bytes
  upgradeSse : Bool
deriving DecidableEq

/-! ## The head -/

/-- The loop that looks for a bare CR or LF in the head; `afterCr` says whether the
byte before was a CR, and behind the head stands a CR. -/
def strictCrlf : Bool → Bytes → Bool
  | afterCr, [] => !afterCr
  | afterCr, b :: rest =>
    if afterCr then b == lf && strictCrlf false rest
    else if b = lf then false
    else strictCrlf (b == cr) rest

/-- Put a byte in front of the first line. -/
def consLine (b : UInt8) : List Bytes → List Bytes
  | [] => [[b]]
  | line :: lines => (b :: line) :: lines

/-- The lines between the CRLFs. -/
def splitCrlf : Bytes → List Bytes
  | [] => [[]]
  | [b] => [[b]]
  | b :: b' :: rest =>
    if b = cr ∧ b' = lf then [] :: splitCrlf rest else consLine b (splitCrlf (b' :: rest))

/-- One turn of the loop over the header lines; nothing when the request is
refused. -/
def parseHeaderLine (headers : Headers) (line : Bytes) : Option Headers :=
  if line.head?.any isBlank then none
  else
    match breakOn [colon] line with
    | none => some headers
    | some (key, val) =>
      if key.getLast?.any isBlank then none
      else if lower key = contentLength ∧
          (AssocList.lookup contentLength headers).any (· != trim val) then none
      else some (AssocList.upsert (lower key) (trim val) headers)

/-- The request line: what stands before the first space and behind the last. -/
def parseRequestLine (line : Bytes) : Option (Bytes × Bytes × Bytes) := do
  let (method, rest) ← breakOn [sp] line
  let (version, path) ← breakOn [sp] rest.reverse
  return (method, path.reverse, version.reverse)

/-- `http_parse_request`. -/
def parseRequest (raw : Bytes) : Option Request := do
  let (reqLine, _) ← breakOn crlf raw
  let (method, fullPath, version) ← parseRequestLine reqLine
  let (path, queryString) := (breakOn [63] fullPath).getD (fullPath, [])
  let (head, _) ← breakOn crlfcrlf raw
  if strictCrlf false head then
    let headers ← (splitCrlf head).tail.foldlM parseHeaderLine []
    let websocket := (AssocList.lookup (ascii "upgrade") headers).any fun up =>
      (breakOn (ascii "websocket") (lower up)).isSome
    return {
      method := method
      path := path
      queryString := queryString
      version := version
      headers := headers
      body := []
      upgradeWebsocket := websocket
      wsKey := if websocket then
        (AssocList.lookup (ascii "sec-websocket-key") headers).getD [] else []
      upgradeSse := (AssocList.lookup (ascii "accept") headers).any fun acc =>
        (breakOn (ascii "text/event-stream") acc).isSome }
  else none

/-! ## The framing of the body -/

/-- How the end of the body is found. -/
inductive Framing where
  | empty
  | length (n : Nat)
  | chunked
deriving DecidableEq

def isDigit (b : UInt8) : Bool := 48 ≤ b && b ≤ 57

/-- `std::stoull` of a text of digits. -/
def decimal (s : Bytes) : Nat := s.foldl (fun n b => n * 10 + (b.toNat - 48)) 0

/-- The checks of `handle_connection` on the two framing fields: the framing, or
the status of the refusal. -/
def framing (maxBody : Nat) (headers : Headers) : Except Nat Framing :=
  match AssocList.lookup transferEncoding headers, AssocList.lookup contentLength headers with
  | some _, some _ => .error 400
  | some te, none => if lower te = ascii "chunked" then .ok .chunked else .error 400
  | none, some cl =>
    if cl.isEmpty || 19 < cl.length || !cl.all isDigit then .error 400
    else if maxBody < decimal cl then .error 413
    else .ok (.length (decimal cl))
  | none, none => .ok .empty

/-- The head of the request is accepted, with this framing. -/
def Accepts (maxBody : Nat) (raw : Bytes) (f : Framing) : Prop :=
  ∃ req, parseRequest raw = some req ∧ framing maxBody req.headers = .ok f

end Http

end Look
