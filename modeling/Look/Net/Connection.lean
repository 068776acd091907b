/-
`handle_connection`: the loop that serves the requests of one connection.

Each turn of the loop starts with an empty buffer, reads up to the end of a head,
then the body, and calls the handler.  What a turn has received and not used is
gone when it ends.  The clock is not part of the model: no read is too slow.
-/
import Look.Net.Chunked

namespace Look

namespace Http

/-! ## Reading one request -/

/-- The limit on the buffer while the head is read. -/
def headLimit : Nat := 2 * 1024 * 1024

/-- The loop that reads up to the end of the head: the buffer and what is unread, or
nothing when the connection is closed. -/
def readHead (buf : Bytes) (unread : List Bytes) : Option (Bytes × List Bytes) :=
  if (breakOn crlfcrlf buf).isSome then some (buf, unread)
  else
    match unread with
    | [] => none
    | bytes :: unread =>
      if headLimit < (buf ++ bytes).length then none else readHead (buf ++ bytes) unread

/-- The bytes of the buffer from `header_end` on. -/
def behindHead (buf : Bytes) : Bytes := ((breakOn crlfcrlf buf).map Prod.snd).getD []

/-- The loop that reads a body of `n` bytes; the last read is cut where the body
ends. -/
def readLength (n : Nat) (body : Bytes) (unread : List Bytes) : Option (Bytes × List Bytes) :=
  if n ≤ body.length then some (body, unread)
  else
    match unread with
    | [] => none
    | bytes :: unread => readLength n (body ++ bytes.take (n - body.length)) unread

/-- How the reading of a body ends. -/
inductive BodyResult where
  | complete (body : Bytes) (unread : List Bytes)
  | refused (status : Nat)
  | closed
deriving DecidableEq

/-- The body of a request, when `behind` has come with the head. -/
def readBody (maxBody : Nat) (f : Framing) (behind : Bytes) (unread : List Bytes) :
    BodyResult :=
  match f with
  | .empty => .complete [] unread
  | .length n =>
    match readLength n (behind.take n) unread with
    | some (body, unread) => .complete body unread
    | none => .closed
  | .chunked =>
    match readChunkedBody maxBody behind unread with
    | .done r => .complete r.out r.unread
    | .refused status => .refused status
    | .more _ _ => .closed

/-! ## The loop -/

/-- The server: its limit on bodies, whether there are handlers for upgraded
connections, and what comes of a call of the handler.  The calls so far and the
value of `keep_alive` decide whether the connection stays open: the handler may
change the flag or fail, and the response may not be sent. -/
structure Server where
  maxBody : Nat
  wsHandler : Bool
  sseHandler : Bool
  responds : List Request → Bool → Bool

def contains (pat s : Bytes) : Bool := (breakOn pat s).isSome

def http11 : Bytes := ascii "HTTP/1.1"

/-- `req_keep_alive`. -/
def reqKeepAlive (req : Request) : Bool :=
  let keep := req.version == http11
  match AssocList.lookup (ascii "connection") req.headers with
  | none => keep
  | some value =>
    let keep := if contains (ascii "close") (lower value) then false else keep
    if contains (ascii "keep-alive") (lower value) then true else keep

/-- How one turn of the loop ends. -/
inductive Served where
  | called (req : Request) (stays : Bool) (unread : List Bytes)
  | handedOver (req : Request)
  | refused (status : Nat)
  | closed

/-- What is done with a complete request. -/
def dispatch (srv : Server) (calls : List Request) (req : Request) (unread : List Bytes) :
    Served :=
  if req.upgradeWebsocket && srv.wsHandler then .handedOver req
  else if req.upgradeSse && srv.sseHandler then .handedOver req
  else .called req (srv.responds (calls ++ [req]) (reqKeepAlive req)) unread

/-- One turn of the loop. -/
def serve (srv : Server) (calls : List Request) (unread : List Bytes) : Served :=
  match readHead [] unread with
  | none => .closed
  | some (buf, unread) =>
    match parseRequest buf with
    | none => .closed
    | some req =>
      match framing srv.maxBody req.headers with
      | .error status => .refused status
      | .ok f =>
        match readBody srv.maxBody f (behindHead buf) unread with
        | .closed => .closed
        | .refused status => .refused status
        | .complete body unread => dispatch srv calls { req with body := body } unread

/-- A call of the handler; `received` is what the turn has received. -/
structure Call where
  req : Request
  received : List Bytes

def connection (srv : Server) : Nat → List Request → List Bytes → List Call
  | 0, _, _ => []
  | fuel + 1, calls, unread =>
    match serve srv calls unread with
    | .called req stays rest =>
      let call := ⟨req, unread.take (unread.length - rest.length)⟩
      if stays then call :: connection srv fuel (calls ++ [req]) rest else [call]
    | _ => []

/-- `handle_connection`: the calls of the handler, when `recv` returns these
segments and then the end of the stream. -/
def handleConnection (srv : Server) (segments : List Bytes) : List Call :=
  connection srv (segments.length + 1) [] segments

/-! ## What a turn receives -/

theorem readHead_suffix {buf buf' : Bytes} {unread rest : List Bytes}
    (h : readHead buf unread = some (buf', rest)) : ∃ taken, unread = taken ++ rest ∧
      buf' = buf ++ taken.flatten ∧ (breakOn crlfcrlf buf').isSome := by
  induction unread generalizing buf with
  | nil =>
    rw [readHead] at h
    split at h
    · rename_i hfound
      cases h
      exact ⟨[], rfl, (List.append_nil _).symm, hfound⟩
    · cases h
  | cons bytes unread ih =>
    rw [readHead] at h
    split at h
    · rename_i hfound
      cases h
      exact ⟨[], rfl, (List.append_nil _).symm, hfound⟩
    · split at h
      · cases h
      · obtain ⟨taken, rfl, rfl, hfound⟩ := ih h
        refine ⟨bytes :: taken, rfl, ?_, hfound⟩
        rw [List.flatten_cons, List.append_assoc]

theorem readLength_suffix {n : Nat} {body body' : Bytes} {unread rest : List Bytes}
    (h : readLength n body unread = some (body', rest)) : ∃ taken, unread = taken ++ rest := by
  induction unread generalizing body with
  | nil =>
    rw [readLength] at h
    split at h
    · cases h
      exact ⟨[], rfl⟩
    · cases h
  | cons bytes unread ih =>
    rw [readLength] at h
    split at h
    · cases h
      exact ⟨[], rfl⟩
    · obtain ⟨taken, rfl⟩ := ih h
      exact ⟨bytes :: taken, rfl⟩

/-- Only reads from the front are taken. -/
def Turn.TakesFrom (unread : List Bytes) : Turn → Prop
  | .more _ r => ∃ taken, unread = taken ++ r.unread
  | .done r => ∃ taken, unread = taken ++ r.unread
  | .refused _ => True

theorem refill_suffix {cap : Nat} {r r' : Reader} {ok : Bool} (h : refill cap r = (ok, r')) :
    ∃ taken, r.unread = taken ++ r'.unread := by
  rw [refill] at h
  split at h
  · cases h
    exact ⟨[], rfl⟩
  · rename_i bytes unread hunread
    rw [hunread]
    split at h <;> cases h <;> exact ⟨[bytes], rfl⟩

theorem readSize_takesFrom (cap : Nat) (r : Reader) (line : Bytes) :
    (readSize cap r line).TakesFrom r.unread := by
  rw [readSize]
  split
  · trivial
  · split
    · trivial
    · dsimp only
      split
      · exact ⟨[], rfl⟩
      · split
        · trivial
        · exact ⟨[], rfl⟩

theorem turn_takesFrom (cap : Nat) (phase : Phase) (r : Reader) :
    (turn cap phase r).TakesFrom r.unread := by
  cases phase with
  | size =>
    rw [turn]
    split
    · split
      · trivial
      · split
        · rename_i hrefill
          exact refill_suffix hrefill
        · trivial
    · exact readSize_takesFrom cap r _
  | data n =>
    rw [turn]
    split
    · split
      · rename_i hrefill
        exact refill_suffix hrefill
      · trivial
    · split
      · exact ⟨[], rfl⟩
      · trivial
  | trailer =>
    rw [turn]
    split
    · split <;>
      · rename_i hrefill
        exact refill_suffix hrefill
    · split <;> exact ⟨[], rfl⟩

theorem run_suffix {cap fuel : Nat} {phase : Phase} {r r' : Reader}
    (h : run cap fuel phase r = .done r') : ∃ taken, r.unread = taken ++ r'.unread := by
  induction fuel generalizing phase r with
  | zero => cases h
  | succ fuel ih =>
    have htakes := turn_takesFrom cap phase r
    rw [run] at h
    split at h
    · rename_i phase1 r1 hturn
      rw [hturn] at htakes
      obtain ⟨first, hfirst⟩ := htakes
      obtain ⟨taken, htaken⟩ := ih h
      exact ⟨first ++ taken, by rw [hfirst, htaken, List.append_assoc]⟩
    · rw [h] at htakes
      exact htakes

theorem readBody_suffix {maxBody : Nat} {f : Framing} {behind body : Bytes}
    {unread rest : List Bytes} (h : readBody maxBody f behind unread = .complete body rest) :
    ∃ taken, unread = taken ++ rest := by
  cases f with
  | empty =>
    cases h
    exact ⟨[], rfl⟩
  | length n =>
    rw [readBody] at h
    split at h
    · rename_i hlength
      cases h
      exact readLength_suffix hlength
    · cases h
  | chunked =>
    rw [readBody] at h
    split at h
    · rename_i r hdone
      cases h
      exact run_suffix hdone
    · cases h
    · cases h

theorem dispatch_called {srv : Server} {calls : List Request} {req req' : Request}
    {unread rest : List Bytes} {stays : Bool}
    (h : dispatch srv calls req unread = .called req' stays rest) : unread = rest := by
  rw [dispatch] at h
  split at h
  · cases h
  · split at h
    · cases h
    · cases h
      rfl

/-- A turn that calls the handler has received at least one segment. -/
theorem serve_suffix {srv : Server} {calls : List Request} {unread rest : List Bytes}
    {req : Request} {stays : Bool} (h : serve srv calls unread = .called req stays rest) :
    ∃ taken, taken ≠ [] ∧ unread = taken ++ rest := by
  rw [serve] at h
  split at h
  · cases h
  · rename_i buf unread1 hhead
    obtain ⟨taken, rfl, rfl, hfound⟩ := readHead_suffix hhead
    have hne : taken ≠ [] := by
      rintro rfl
      cases hfound
    split at h
    · cases h
    · split at h
      · cases h
      · split at h
        · cases h
        · cases h
        · rename_i hbody
          obtain ⟨more, rfl⟩ := readBody_suffix hbody
          rw [dispatch_called h]
          exact ⟨taken ++ more, by simp [hne], (List.append_assoc _ _ _).symm⟩

/-- Every turn receives something, so that the fuel does not run out. -/
theorem connection_fuel {srv : Server} {fuel fuel' : Nat} {calls : List Request}
    {unread : List Bytes} (h : unread.length < fuel) (h' : unread.length < fuel') :
    connection srv fuel calls unread = connection srv fuel' calls unread := by
  induction fuel generalizing fuel' calls unread with
  | zero => omega
  | succ fuel ih =>
    obtain ⟨fuel', rfl⟩ : ∃ k, fuel' = k + 1 := ⟨fuel' - 1, by omega⟩
    rw [connection, connection]
    split
    · rename_i req stays rest hserve
      obtain ⟨taken, hne, rfl⟩ := serve_suffix hserve
      have hpos := List.length_pos_of_ne_nil hne
      rw [List.length_append] at h h'
      have hsame : connection srv fuel (calls ++ [req]) rest =
          connection srv fuel' (calls ++ [req]) rest := ih (by omega) (by omega)
      rw [hsame]
    · rfl

/-- What the turns have received is a part of the stream, from its start on. -/
theorem connection_received (srv : Server) (fuel : Nat) (calls : List Request)
    (unread : List Bytes) :
    ∃ rest, unread = ((connection srv fuel calls unread).map Call.received).flatten ++ rest := by
  induction fuel generalizing calls unread with
  | zero => exact ⟨unread, rfl⟩
  | succ fuel ih =>
    rw [connection]
    split
    · rename_i req stays rest hserve
      obtain ⟨taken, -, rfl⟩ := serve_suffix hserve
      have htaken : (taken ++ rest).take ((taken ++ rest).length - rest.length) = taken := by
        rw [List.length_append, Nat.add_sub_cancel, List.take_left]
      dsimp only
      rw [htaken]
      cases stays with
      | true =>
        obtain ⟨more, hmore⟩ := ih (calls ++ [req]) rest
        refine ⟨more, ?_⟩
        rw [if_pos rfl, List.map_cons, List.flatten_cons, List.append_assoc, ← hmore]
      | false => exact ⟨rest, by simp⟩
    · exact ⟨unread, rfl⟩

end Http

end Look
