/-
The counters of the SMTP server are right in every run in which the loop closes no descriptor
before its banner has been written.

`close_session` takes 1 from `conn_count` whether or not it finds a session, and the loop
closes descriptors without asking the server when there is no read callback.  The first does no
harm, because a callback runs only while its session is in `sessions`; the second leaves a
session behind that nobody removes.
-/
import Look.Net.SmtpRelay
import Look.Net.SmtpServer

namespace Look

namespace Smtp

open Http (Bytes)

/-! ## What a callback keeps -/

/-- The address of the client and the bytes that wait are the same. -/
structure SameInput (s s' : Session) : Prop where
  remoteIp : s'.msg.remoteIp = s.msg.remoteIp
  buf : s'.buf = s.buf

section Callbacks

variable {cfg : Config} {s s' : Session}

theorem errorReply_sameInput (reply : Bytes) : SameInput s (errorReply cfg s reply) := by
  rw [errorReply]
  dsimp only
  split <;> exact ⟨rfl, rfl⟩

theorem handleEhlo_sameInput (verb line : Bytes) : SameInput s (handleEhlo cfg s verb line) := by
  rw [handleEhlo]
  split
  · exact errorReply_sameInput _
  · exact ⟨rfl, rfl⟩

theorem handleAuth_sameInput (line : Bytes) : SameInput s (handleAuth cfg s line) := by
  rcases handleAuth_cases cfg s line with ⟨reply, h⟩ | ⟨_, reply, h⟩
  · rw [h]
    exact errorReply_sameInput reply
  · rw [h]
    exact ⟨rfl, rfl⟩

theorem handleMail_sameInput (line : Bytes) : SameInput s (handleMail cfg s line) := by
  rcases handleMail_cases cfg s line with ⟨reply, h⟩ | ⟨_, addr, reply, h⟩
  · rw [h]
    exact errorReply_sameInput reply
  · rw [h]
    exact ⟨rfl, rfl⟩

theorem handleReady_sameInput (verb line : Bytes) : SameInput s (handleReady cfg s verb line) := by
  rw [handleReady]
  split
  · exact errorReply_sameInput _
  · split
    · exact handleAuth_sameInput line
    · split
      · exact handleMail_sameInput line
      · split
        · exact handleEhlo_sameInput verb line
        · exact errorReply_sameInput _

theorem handleRcpt_sameInput (line : Bytes) : SameInput s (handleRcpt cfg s line) := by
  rw [handleRcpt]
  dsimp only
  split
  · exact errorReply_sameInput _
  · exact ⟨rfl, rfl⟩

theorem handleMailFromState_sameInput (verb line : Bytes) :
    SameInput s (handleMailFromState cfg s verb line) := by
  rw [handleMailFromState]
  split
  · exact errorReply_sameInput _
  · exact handleRcpt_sameInput line

theorem handleRcptToState_sameInput (verb line : Bytes) :
    SameInput s (handleRcptToState cfg s verb line) := by
  rw [handleRcptToState]
  split
  · exact handleRcpt_sameInput line
  · split
    · exact ⟨rfl, rfl⟩
    · exact errorReply_sameInput _

theorem dispatchCommand_sameInput (line : Bytes) :
    SameInput s (dispatchCommand cfg s line).2 := by
  rw [dispatchCommand]
  split
  · exact ⟨rfl, rfl⟩
  · split
    · exact ⟨rfl, rfl⟩
    · split
      · exact ⟨rfl, rfl⟩
      · split
        · exact handleEhlo_sameInput _ line
        · exact handleReady_sameInput _ line
        · exact handleMailFromState_sameInput _ line
        · exact handleRcptToState_sameInput _ line
        · exact ⟨rfl, rfl⟩
        · exact errorReply_sameInput _

theorem handleDataBody_sameInput (line : Bytes) : SameInput s (handleDataBody cfg s line).2 := by
  rw [handleDataBody]
  split
  · split <;> exact ⟨rfl, rfl⟩
  · dsimp only
    split <;> exact ⟨rfl, rfl⟩

theorem dispatchLine_sameInput (line : Bytes) : SameInput s (dispatchLine cfg s line).2 := by
  rw [dispatchLine]
  split
  · exact handleDataBody_sameInput line
  · have h : SameInput { s with log := s.log ++ [.command line] }
        (dispatchCommand cfg { s with log := s.log ++ [.command line] } line).2 :=
      dispatchCommand_sameInput line
    exact ⟨h.remoteIp, h.buf⟩

/-- A turn of the loop is the last one or takes a line from the buffer. -/
theorem pumpTurn_cases (cfg : Config) (s : Session) :
    (pumpTurn cfg s).msg.remoteIp = s.msg.remoteIp ∧
      ((pumpTurn cfg s).pumping = false ∨ (pumpTurn cfg s).buf.length < s.buf.length) := by
  rw [pumpTurn]
  split
  · dsimp only
    split
    · exact ⟨rfl, Or.inl rfl⟩
    · exact ⟨rfl, Or.inl rfl⟩
  · rename_i line rest hline
    have hbuf : rest.length < s.buf.length := by
      have := congrArg List.length (breakOn_eq hline)
      simp only [List.length_append, List.length_singleton] at this
      omega
    have hsame : SameInput { s with buf := rest, waiting := true }
        (dispatchLine cfg { s with buf := rest, waiting := true } (stripCr line)).2 :=
      dispatchLine_sameInput (stripCr line)
    split
    · rename_i s' hturn
      rw [hturn] at hsame
      exact ⟨hsame.remoteIp, Or.inr (hsame.buf ▸ hbuf)⟩
    · rename_i s' hturn
      rw [hturn] at hsame
      exact ⟨hsame.remoteIp, Or.inl rfl⟩

theorem remoteIp_pumpTurns (n : Nat) :
    (pumpTurns cfg n s).msg.remoteIp = s.msg.remoteIp := by
  induction n generalizing s with
  | zero => rfl
  | succ n ih =>
    rw [pumpTurns]
    split
    · exact ih.trans (pumpTurn_cases cfg s).1
    · rfl

theorem pumping_pumpTurns {n : Nat} (h : s.buf.length < n) :
    (pumpTurns cfg n s).pumping = false := by
  induction n generalizing s with
  | zero => exact absurd h (Nat.not_lt_zero _)
  | succ n ih =>
    rw [pumpTurns]
    split
    · rcases (pumpTurn_cases cfg s).2 with hlast | hless
      · cases n with
        | zero => exact hlast
        | succ n =>
          rw [pumpTurns, hlast]
          exact hlast
      · exact ih (by omega)
    · rename_i hpumping
      exact Bool.not_eq_true _ ▸ hpumping

/-- The loop of `pump` comes to its end. -/
theorem pumping_pump : (pump cfg s).pumping = false := pumping_pumpTurns (Nat.lt_succ_self _)

theorem remoteIp_pump : (pump cfg s).msg.remoteIp = s.msg.remoteIp := remoteIp_pumpTurns _

theorem remoteIp_onData (bytes : Bytes) : (onData cfg s bytes).msg.remoteIp = s.msg.remoteIp := by
  rw [onData]
  split
  · rfl
  · dsimp only
    split
    · split <;> rfl
    · rfl

theorem remoteIp_afterWrite (next : Next) : (afterWrite s next).msg.remoteIp = s.msg.remoteIp := by
  cases next <;> rfl

end Callbacks

namespace Server

/-! ## The invariant -/

/-- The callbacks of an entry are for the session of its descriptor. -/
structure Captures (s : Server) (fd : Nat) (e : Entry) : Prop where
  readCb : ∀ i, e.readCb = some i → (fd, i) ∈ s.sessions
  writeCb : ∀ i next, e.writeCb = some (i, next) → (fd, i) ∈ s.sessions

/-- The invariant: a callback runs only while its session is there, and a session that is not
closed is there. -/
structure Inv (lim : Limits) (s : Server) : Prop where
  accounted : Accounted s
  keys : (s.sessions.map Prod.fst).Nodup
  bounded : s.connCount ≤ max 0 lim.maxConn
  known : ∀ fd i, (fd, i) ∈ s.sessions → ∃ c, s.conns[i]? = some c ∧ c.fd = fd
  captures : ∀ fd e, s.fds fd = some e → Captures s fd e
  unclosed : ∀ i c, s.conns[i]? = some c → c.session.closed = false → (c.fd, i) ∈ s.sessions

section Invariant

variable {cfg : Config} {lim : Limits} {s : Server} {fd i : Nat}

theorem wrap_of_small {n : Int} (h : 0 ≤ n) (hn : n < 2 ^ 31) : wrap n = n := by
  have hhalf : (2 : Int) ^ 31 = (Int32.size + 1) / 2 := by decide
  exact Int.bmod_eq_of_le (Int.le_trans (by decide) h) (hhalf ▸ hn)

theorem start_inv : Inv lim start where
  accounted :=
    { conns := rfl
      ips := fun _ => rfl
      ips_pos := fun _ _ h => absurd h (Option.some_ne_none _).symm
      left := fun _ _ h => absurd h List.not_mem_nil }
  keys := List.nodup_nil
  bounded := Int.le_max_left 0 lim.maxConn
  known := fun _ _ h => absurd h List.not_mem_nil
  captures := fun _ _ h => absurd h (Option.some_ne_none _).symm
  unclosed := fun _ _ h => absurd h (Option.some_ne_none _).symm

theorem Inv.notMem_of_fds (h : Inv lim s) (hfd : s.fds fd = none) : (fd, i) ∉ s.sessions := by
  intro hm
  have := (h.accounted.left fd i hm).2
  rw [hfd] at this
  cases this

/-! ### Entries -/

theorem setEntry_fds_self (e : Option Entry) : (s.setEntry fd e).fds fd = e :=
  Function.update_self ..

theorem setEntry_fds_of_ne {fd' : Nat} (e : Option Entry) (h : fd' ≠ fd) :
    (s.setEntry fd e).fds fd' = s.fds fd' :=
  Function.update_of_ne h ..

theorem Inv.setEntry {e : Entry} (h : Inv lim s) (hcap : Captures s fd e) :
    Inv lim (s.setEntry fd (some e)) where
  accounted :=
    { h.accounted with
      left := by
        intro fd' j hm
        refine ⟨(h.accounted.left fd' j hm).1, ?_⟩
        by_cases hfd : fd' = fd
        · rw [hfd, setEntry_fds_self]
          rfl
        · rw [setEntry_fds_of_ne _ hfd]
          exact (h.accounted.left fd' j hm).2 }
  keys := h.keys
  bounded := h.bounded
  known := h.known
  captures := by
    intro fd' e' he
    by_cases hfd : fd' = fd
    · rw [hfd, setEntry_fds_self] at he
      cases he
      subst hfd
      exact ⟨hcap.readCb, hcap.writeCb⟩
    · rw [setEntry_fds_of_ne _ hfd] at he
      exact ⟨(h.captures fd' e' he).readCb, (h.captures fd' e' he).writeCb⟩
  unclosed := h.unclosed

/-- A descriptor without a session may be closed. -/
theorem Inv.closeFd (h : Inv lim s) (hno : ∀ j, (fd, j) ∉ s.sessions) :
    Inv lim (s.closeFd fd) := by
  rw [Server.closeFd]
  split
  · exact h
  · refine ⟨{ h.accounted with left := ?_ }, h.keys, h.bounded, h.known, ?_, h.unclosed⟩
    · intro fd' j hm
      have hfd : fd' ≠ fd := fun he => hno j (he ▸ hm)
      have hleft := h.accounted.left fd' j hm
      refine ⟨?_, ?_⟩
      · exact (Function.update_of_ne hfd _ _).trans hleft.1
      · exact (congrArg Option.isSome (setEntry_fds_of_ne none hfd)).trans hleft.2
    · intro fd' e (he : (s.setEntry fd none).fds fd' = some e)
      by_cases hfd : fd' = fd
      · rw [hfd, setEntry_fds_self] at he
        cases he
      · rw [setEntry_fds_of_ne _ hfd] at he
        exact ⟨(h.captures fd' e he).readCb, (h.captures fd' e he).writeCb⟩

/-! ### Sessions -/

/-- The new value of a session is for the same client, and is closed if the old one is. -/
structure SameConn (c c' : Conn) : Prop where
  fd : c'.fd = c.fd
  remoteIp : c'.session.msg.remoteIp = c.session.msg.remoteIp
  closed : c'.session.closed = false → c.session.closed = false

theorem address_setConn {c c' : Conn} (hc : s.conns[i]? = some c) (hsame : SameConn c c') :
    (s.setConn i c').address = s.address := by
  funext j
  rw [address, address, Server.setConn]
  dsimp only
  by_cases hj : j = i
  · have hlt : i < s.conns.length := (List.getElem?_eq_some_iff.mp hc).1
    rw [hj, List.getElem?_set_self hlt, hc, Option.map_some, Option.map_some, hsame.remoteIp]
  · rw [List.getElem?_set_ne (Ne.symm hj)]

theorem sessionsOf_setConn {c c' : Conn} (hc : s.conns[i]? = some c) (hsame : SameConn c c')
    (ip : Bytes) : (s.setConn i c').sessionsOf ip = s.sessionsOf ip := by
  rw [sessionsOf, sessionsOf, address_setConn hc hsame]
  rfl

theorem Inv.setConn {c c' : Conn} (h : Inv lim s) (hc : s.conns[i]? = some c)
    (hsame : SameConn c c') : Inv lim (s.setConn i c') where
  accounted :=
    { conns := h.accounted.conns
      ips := fun ip => (sessionsOf_setConn hc hsame ip).symm ▸ h.accounted.ips ip
      ips_pos := h.accounted.ips_pos
      left := h.accounted.left }
  keys := h.keys
  bounded := h.bounded
  known := by
    intro fd' j hm
    obtain ⟨d, hd, hfd⟩ := h.known fd' j hm
    by_cases hj : j = i
    · subst hj
      have hlt : j < s.conns.length := (List.getElem?_eq_some_iff.mp hc).1
      rw [hc] at hd
      cases hd
      exact ⟨c', List.getElem?_set_self hlt, hsame.fd.trans hfd⟩
    · exact ⟨d, (List.getElem?_set_ne (Ne.symm hj)).trans hd, hfd⟩
  captures := fun fd' e he => ⟨(h.captures fd' e he).readCb, (h.captures fd' e he).writeCb⟩
  unclosed := by
    intro j d hd hopen
    rw [Server.setConn] at hd
    dsimp only at hd
    by_cases hj : j = i
    · subst hj
      have hlt : j < s.conns.length := (List.getElem?_eq_some_iff.mp hc).1
      rw [List.getElem?_set_self hlt] at hd
      cases hd
      exact hsame.fd ▸ h.unclosed j c hc (hsame.closed hopen)
    · rw [List.getElem?_set_ne (Ne.symm hj)] at hd
      exact h.unclosed j d hd hopen

theorem Inv.modifySession {f : Session → Session} (h : Inv lim s)
    (hip : ∀ session, (f session).msg.remoteIp = session.msg.remoteIp)
    (hclosed : ∀ session, (f session).closed = false → session.closed = false) :
    Inv lim (s.modifySession i f) := by
  rw [Server.modifySession]
  split
  · exact h
  · rename_i c hc
    exact h.setConn hc ⟨rfl, hip c.session, hclosed c.session⟩

theorem modifySession_of_getElem {c : Conn} (hc : s.conns[i]? = some c)
    (f : Session → Session) :
    s.modifySession i f = s.setConn i { c with session := f c.session } := by
  rw [modifySession, hc]

theorem address_of_getElem {c : Conn} (hc : s.conns[i]? = some c) :
    s.address i = c.session.msg.remoteIp := by
  rw [address, hc]
  rfl

/-! ### Closing a session -/

/-- The sessions of an address, without that of a descriptor. -/
theorem length_sessionsOf (h : Inv lim s) (hm : (fd, i) ∈ s.sessions) (ip : Bytes) :
    (s.sessionsOf ip).length =
      ((SortedMap.erase fd s.sessions).filter fun p => s.address p.2 == ip).length +
        if s.address i = ip then 1 else 0 := by
  have hperm := (SortedMap.perm_erase h.keys hm).filter fun p => s.address p.2 == ip
  have hlength := hperm.length_eq
  rw [List.filter_cons] at hlength
  rw [sessionsOf, hlength]
  by_cases hip : s.address i = ip
  · rw [if_pos (beq_iff_eq.mpr hip), if_pos hip, List.length_cons]
  · rw [if_neg (fun he => hip (beq_iff_eq.mp he)), if_neg hip, Nat.add_zero]

/-- The address of a session is counted. -/
theorem Inv.ipConns_pos (h : Inv lim s) (hm : (fd, i) ∈ s.sessions) :
    ∃ n, s.ipConns (s.address i) = some n ∧ 0 < n := by
  cases hn : s.ipConns (s.address i) with
  | some n => exact ⟨n, rfl, h.accounted.ips_pos _ n hn⟩
  | none =>
    have hcount := h.accounted.ips (s.address i)
    rw [hn, length_sessionsOf h hm, if_pos rfl, Option.getD_none] at hcount
    omega

/-- What `close_session` does when there is a session. -/
def closed (s : Server) (fd i : Nat) (c : Conn) (n : Int) : Server where
  fds := Function.update s.fds fd none
  isOpen := Function.update s.isOpen fd false
  conns := s.conns.set i { c with session := Smtp.closeSession c.session }
  sessions := SortedMap.erase fd s.sessions
  connCount := s.connCount - 1
  ipConns := Function.update s.ipConns (s.address i) (if n - 1 ≤ 0 then none else some (n - 1))

theorem closeSession_eq {c : Conn} {n : Int} (h : Inv lim s) (hm : (fd, i) ∈ s.sessions)
    (hc : s.conns[i]? = some c) (hn : s.ipConns (s.address i) = some n) :
    s.closeSession fd = closed s fd i c n := by
  have hforget : s.forget fd = { s with
      conns := s.conns.set i { c with session := Smtp.closeSession c.session }
      sessions := SortedMap.erase fd s.sessions
      ipConns := Function.update s.ipConns (s.address i)
        (if n - 1 ≤ 0 then none else some (n - 1)) } := by
    rw [forget, AssocList.lookup_of_mem h.keys hm]
    dsimp only
    rw [modifySession_of_getElem hc, ipRelease, Server.setConn]
    dsimp only
    rw [hn]
  obtain ⟨e, he⟩ := Option.isSome_iff_exists.mp (h.accounted.left fd i hm).2
  have hpos : 0 < s.sessions.length := List.length_pos_of_mem hm
  have hcount := h.accounted.conns
  have hbound := h.bounded
  have hmax := lim.maxConn_lt
  have hwrap : wrap (s.connCount - 1) = s.connCount - 1 := by
    refine wrap_of_small (by omega) ?_
    have : max 0 lim.maxConn < 2 ^ 31 := max_lt (by decide) hmax
    exact Int.lt_of_lt_of_le (Int.sub_lt_self _ (by decide)) (hbound.trans this.le)
  rw [closeSession, hforget, closeFd]
  dsimp only
  rw [he]
  dsimp only [setEntry]
  rw [hwrap]
  rfl

theorem Inv.ips_closed {c : Conn} {n : Int} (h : Inv lim s) (hm : (fd, i) ∈ s.sessions)
    (hc : s.conns[i]? = some c) (hn : s.ipConns (s.address i) = some n) (ip : Bytes) :
    ((closed s fd i c n).ipConns ip).getD 0 = ((closed s fd i c n).sessionsOf ip).length := by
  have haddress : (closed s fd i c n).address = s.address :=
    address_setConn hc ⟨rfl, rfl, nofun⟩
  have hcount := h.accounted.ips ip
  rw [length_sessionsOf h hm] at hcount
  rw [sessionsOf, haddress, closed]
  dsimp only
  by_cases hip : ip = s.address i
  · subst hip
    rw [hn, if_pos rfl, Option.getD_some] at hcount
    rw [Function.update_self]
    split
    · rw [Option.getD_none]
      omega
    · rw [Option.getD_some]
      omega
  · rw [if_neg (Ne.symm hip), Nat.add_zero] at hcount
    rw [Function.update_of_ne hip]
    exact hcount

theorem Inv.accounted_closed {c : Conn} {n : Int} (h : Inv lim s) (hm : (fd, i) ∈ s.sessions)
    (hc : s.conns[i]? = some c) (hn : s.ipConns (s.address i) = some n) :
    Accounted (closed s fd i c n) where
  conns := by
    have hlength := (SortedMap.perm_erase h.keys hm).length_eq
    have hcount := h.accounted.conns
    rw [List.length_cons] at hlength
    rw [closed]
    dsimp only
    omega
  ips := h.ips_closed hm hc hn
  ips_pos := by
    intro ip m (hip : Function.update s.ipConns _ _ ip = some m)
    by_cases he : ip = s.address i
    · rw [he, Function.update_self] at hip
      split at hip
      · cases hip
      · cases hip
        omega
    · rw [Function.update_of_ne he] at hip
      exact h.accounted.ips_pos ip m hip
  left := by
    intro fd' j hj
    obtain ⟨hj, hfd⟩ := SortedMap.mem_erase.mp hj
    obtain ⟨hopen, hentry⟩ := h.accounted.left fd' j hj
    rw [closed]
    dsimp only
    rw [Function.update_of_ne hfd, Function.update_of_ne hfd]
    exact ⟨hopen, hentry⟩

theorem Inv.closed {c : Conn} {n : Int} (h : Inv lim s) (hm : (fd, i) ∈ s.sessions)
    (hc : s.conns[i]? = some c) (hn : s.ipConns (s.address i) = some n) :
    Inv lim (closed s fd i c n) where
  accounted := h.accounted_closed hm hc hn
  keys := SortedMap.nodup_erase h.keys
  bounded := (Int.sub_le_self _ (by decide)).trans h.bounded
  known := by
    intro fd' j hj
    have hsame : SameConn c { c with session := Smtp.closeSession c.session } :=
      ⟨rfl, rfl, nofun⟩
    exact (h.setConn hc hsame).known fd' j (SortedMap.mem_erase.mp hj).1
  captures := by
    intro fd' e (he : Function.update s.fds fd none fd' = some e)
    by_cases hfd : fd' = fd
    · rw [hfd, Function.update_self] at he
      cases he
    · rw [Function.update_of_ne hfd] at he
      have hcap := h.captures fd' e he
      exact ⟨fun j hj => SortedMap.mem_erase.mpr ⟨hcap.readCb j hj, hfd⟩,
        fun j next hj => SortedMap.mem_erase.mpr ⟨hcap.writeCb j next hj, hfd⟩⟩
  unclosed := by
    intro j d (hd : (s.conns.set i _)[j]? = some d) hopen
    by_cases hj : j = i
    · have hlt : i < s.conns.length := (List.getElem?_eq_some_iff.mp hc).1
      rw [hj, List.getElem?_set_self hlt] at hd
      cases hd
      cases hopen
    · rw [List.getElem?_set_ne (Ne.symm hj)] at hd
      have hd' := h.unclosed j d hd hopen
      -- Another session of this descriptor would have the same key.
      refine SortedMap.mem_erase.mpr ⟨hd', fun hfd => hj ?_⟩
      have h1 := AssocList.lookup_of_mem h.keys (hfd ▸ hd')
      have h2 := AssocList.lookup_of_mem h.keys hm
      exact Option.some.inj (h1.symm.trans h2)

/-- `close_session` for a descriptor with a session. -/
theorem Inv.closeSession (h : Inv lim s) (hm : (fd, i) ∈ s.sessions) :
    Inv lim (s.closeSession fd) ∧ (s.closeSession fd).fds fd = none := by
  obtain ⟨c, hc, _⟩ := h.known fd i hm
  obtain ⟨n, hn, _⟩ := h.ipConns_pos hm
  rw [closeSession_eq h hm hc hn]
  exact ⟨h.closed hm hc hn, Function.update_self ..⟩

/-! ### Callbacks -/

/-- What a callback of a session leaves: the session is there as long as its descriptor has an
entry. -/
structure After (lim : Limits) (fd i : Nat) (s : Server) : Prop where
  inv : Inv lim s
  here : (s.fds fd).isSome = true → (fd, i) ∈ s.sessions

theorem After.of_closeSession (h : Inv lim s) (hm : (fd, i) ∈ s.sessions) :
    After lim fd i (s.closeSession fd) := by
  obtain ⟨hinv, hnone⟩ := h.closeSession hm
  refine ⟨hinv, fun hsome => ?_⟩
  rw [hnone] at hsome
  cases hsome

theorem After.asyncRead (h : Inv lim s) (hm : (fd, i) ∈ s.sessions) :
    After lim fd i (s.asyncRead fd i) := by
  rw [Server.asyncRead]
  split
  · exact ⟨h, fun _ => hm⟩
  · rename_i e he
    refine ⟨h.setEntry ⟨?_, (h.captures fd e he).writeCb⟩, fun _ => hm⟩
    intro j hj
    cases hj
    exact hm

theorem After.asyncWrite (h : Inv lim s) (hm : (fd, i) ∈ s.sessions) (next : Next) :
    After lim fd i (s.asyncWrite fd i next) := by
  rw [Server.asyncWrite.eq_def]
  split
  · rename_i e he
    refine ⟨h.setEntry ⟨(h.captures fd e he).readCb, ?_⟩, fun _ => hm⟩
    intro j next' hj
    cases hj
    exact hm
  · rename_i hnone
    exact absurd hm (h.notMem_of_fds hnone)

theorem After.settle (h : Inv lim s) (hm : (fd, i) ∈ s.sessions) (session : Session) :
    After lim fd i (s.settle fd i session) := by
  rw [Server.settle]
  split
  · exact .of_closeSession h hm
  · split
    · exact .asyncWrite h hm _
    · split
      · exact ⟨h, fun _ => hm⟩
      · exact .asyncRead h hm

theorem After.call {f : Session → Session} (h : Inv lim s) (hm : (fd, i) ∈ s.sessions)
    (hip : ∀ session, (f session).msg.remoteIp = session.msg.remoteIp) :
    After lim fd i (s.call cfg fd i f) := by
  rw [Server.call]
  split
  · exact ⟨h, fun _ => hm⟩
  · rename_i c hc
    refine .settle (h.setConn hc ?_) hm _
    exact ⟨rfl, remoteIp_pump.trans (hip _), id⟩

theorem After.notify (h : Inv lim s) (hm : (fd, i) ∈ s.sessions) (bytes : Bytes) :
    After lim fd i (s.notify cfg fd (some i) bytes) :=
  .call h hm fun _ => remoteIp_onData bytes

theorem After.written (h : Inv lim s) (hm : (fd, i) ∈ s.sessions) (next : Next) :
    After lim fd i (s.written cfg fd i next) := by
  rw [Server.written.eq_def]
  split
  · exact .of_closeSession h hm
  · exact .call h hm fun _ => remoteIp_afterWrite _
  · split
    · exact ⟨h, fun _ => hm⟩
    · exact .call h hm fun _ => remoteIp_afterWrite _

/-! ### The steps of the loop -/

/-- The read callback is told that the connection is over. -/
theorem Inv.notify_nil (cfg : Config) (h : Inv lim s) (hm : (fd, i) ∈ s.sessions) :
    Inv lim (s.notify cfg fd (some i) []) ∧ (s.notify cfg fd (some i) []).fds fd = none := by
  obtain ⟨c, hc, _⟩ := h.known fd i hm
  rw [notify, call, hc]
  dsimp only
  rw [settle, if_pos]
  · refine (h.setConn hc ?_).closeSession hm
    exact ⟨rfl, remoteIp_pump.trans (remoteIp_onData []), id⟩
  · rfl

/-- The loop closes a descriptor, after the read callback. -/
theorem Inv.hangUp {readCb : Option Nat} (h : Inv lim s)
    (hcb : ∀ j, readCb = some j → (fd, j) ∈ s.sessions)
    (hnone : readCb = none → ∀ j, (fd, j) ∉ s.sessions) :
    Inv lim ((s.notify cfg fd readCb []).closeFd fd) := by
  cases readCb with
  | none => exact h.closeFd (hnone rfl)
  | some j =>
    obtain ⟨hinv, hgone⟩ := h.notify_nil cfg (hcb j rfl)
    exact hinv.closeFd fun _ => hinv.notMem_of_fds hgone

theorem Inv.readLoop {readCb : Option Nat} (reads : List Read) (h : Inv lim s)
    (hcb : ∀ j, readCb = some j → (fd, j) ∈ s.sessions)
    (hnone : readCb = none → (∀ j, (fd, j) ∉ s.sessions) ∨
      ∀ r ∈ reads, ∃ first rest, r = .data first rest) :
    Inv lim (readLoop cfg fd readCb s reads) := by
  induction reads generalizing s with
  | nil => exact h
  | cons r reads ih =>
    have hup : (∀ first rest, r ≠ .data first rest) →
        Inv lim ((s.notify cfg fd readCb []).closeFd fd) := by
      intro hr
      refine h.hangUp hcb fun hno => (hnone hno).resolve_right fun hdata => ?_
      obtain ⟨first, rest, he⟩ := hdata r List.mem_cons_self
      exact hr first rest he
    cases r with
    | fin => exact hup nofun
    | error => exact hup nofun
    | data first rest =>
      rw [Server.readLoop]
      cases readCb with
      | none =>
        split
        · exact h
        · refine ih h hcb fun hno => (hnone hno).imp_right fun hdata r hr => ?_
          exact hdata r (List.mem_cons_of_mem _ hr)
      | some j =>
        have hafter : After lim fd j (s.notify cfg fd (some j) (first :: rest)) :=
          .notify h (hcb j rfl) (first :: rest)
        split
        · exact hafter.inv
        · rename_i hentry
          rw [Option.isNone_iff_eq_none] at hentry
          refine ih hafter.inv ?_ nofun
          intro j' hj'
          cases hj'
          exact hafter.here (Option.isSome_iff_ne_none.mpr hentry)

/-! ### Accepting -/

theorem Inv.setOpen (h : Inv lim s) (hno : ∀ j, (fd, j) ∉ s.sessions) (b : Bool) :
    Inv lim { s with isOpen := Function.update s.isOpen fd b } := by
  refine ⟨{ h.accounted with left := ?_ }, h.keys, h.bounded, h.known, ?_, h.unclosed⟩
  · intro fd' j hm
    have hfd : fd' ≠ fd := fun he => hno j (he ▸ hm)
    refine ⟨?_, (h.accounted.left fd' j hm).2⟩
    exact (Function.update_of_ne hfd ..).trans (h.accounted.left fd' j hm).1
  · exact fun fd' e he => ⟨(h.captures fd' e he).readCb, (h.captures fd' e he).writeCb⟩

/-- Another map with the same counters. -/
theorem Inv.setIps {f : Bytes → Option Int} (h : Inv lim s)
    (hget : ∀ ip, (f ip).getD 0 = (s.ipConns ip).getD 0) (hpos : ∀ ip n, f ip = some n → 0 < n) :
    Inv lim { s with ipConns := f } := by
  refine ⟨?_, h.keys, h.bounded, h.known, ?_, h.unclosed⟩
  · exact ⟨h.accounted.conns, fun ip => (hget ip).trans (h.accounted.ips ip), hpos,
      h.accounted.left⟩
  · exact fun fd' e he => ⟨(h.captures fd' e he).readCb, (h.captures fd' e he).writeCb⟩

theorem Inv.ips_nonneg (h : Inv lim s) (ip : Bytes) : 0 ≤ (s.ipConns ip).getD 0 := by
  rw [h.accounted.ips]
  exact Int.natCast_nonneg _

/-- Counting an address and taking it back changes no counter. -/
theorem Inv.ipRelease_acquired (h : Inv lim s) {ip : Bytes} {s' : Server}
    (hs' : s.ipAcquire lim ip = some s') : Inv lim (s'.ipRelease ip) := by
  rw [ipAcquire] at hs'
  split at hs'
  · cases hs'
  · cases hs'
    have hn := h.ips_nonneg ip
    rw [ipRelease]
    dsimp only
    rw [Function.update_self]
    dsimp only
    rw [Function.update_idem]
    refine h.setIps ?_ ?_
    · intro ip'
      by_cases hip : ip' = ip
      · rw [hip, Function.update_self]
        split
        · rw [Option.getD_none]
          omega
        · rw [Option.getD_some]
          omega
      · rw [Function.update_of_ne hip]
    · intro ip' n hn'
      by_cases hip : ip' = ip
      · rw [hip, Function.update_self] at hn'
        split at hn'
        · cases hn'
        · cases hn'
          omega
      · rw [Function.update_of_ne hip] at hn'
        exact h.accounted.ips_pos ip' n hn'

/-- The server with one more session. -/
def joined (cfg : Config) (s : Server) (fd : Nat) (ip : Bytes) (submission : Bool) : Server :=
  { s with
    ipConns := Function.update s.ipConns ip (some ((s.ipConns ip).getD 0 + 1))
    connCount := wrap (s.connCount + 1)
    conns := s.conns.concat ⟨fd, Session.start cfg submission ip⟩
    sessions := SortedMap.put fd s.conns.length s.sessions }

section Joined

variable {ip : Bytes} {submission : Bool}

theorem getElem?_joined_of_lt (hi : i < s.conns.length) :
    (joined cfg s fd ip submission).conns[i]? = s.conns[i]? := by
  rw [joined, List.concat_eq_append]
  exact List.getElem?_append_left hi

theorem getElem?_joined_self :
    (joined cfg s fd ip submission).conns[s.conns.length]? =
      some ⟨fd, Session.start cfg submission ip⟩ := by
  rw [joined, List.concat_eq_append]
  exact List.getElem?_concat_length

theorem Inv.lt_of_mem (h : Inv lim s) (hm : (fd, i) ∈ s.sessions) : i < s.conns.length := by
  obtain ⟨c, hc, _⟩ := h.known fd i hm
  exact (List.getElem?_eq_some_iff.mp hc).1

theorem perm_joined (cfg : Config) (ip : Bytes) (submission : Bool) (hno : ∀ j, (fd, j) ∉ s.sessions) :
    (joined cfg s fd ip submission).sessions.Perm ((fd, s.conns.length) :: s.sessions) := by
  have hkeys : fd ∉ s.sessions.map Prod.fst := by
    intro hk
    obtain ⟨⟨fd', j⟩, hm, rfl⟩ := List.mem_map.mp hk
    exact hno j hm
  have hperm := SortedMap.perm_put fd s.conns.length s.sessions
  rwa [SortedMap.erase_of_notMem hkeys] at hperm

theorem Inv.ips_joined (h : Inv lim s) (hno : ∀ j, (fd, j) ∉ s.sessions) (ip' : Bytes) :
    ((joined cfg s fd ip submission).ipConns ip').getD 0 =
      ((joined cfg s fd ip submission).sessionsOf ip').length := by
  have hnew : (joined cfg s fd ip submission).address s.conns.length = ip :=
    address_of_getElem getElem?_joined_self
  have hold : s.sessions.filter
      (fun p => (joined cfg s fd ip submission).address p.2 == ip') = s.sessionsOf ip' := by
    refine List.filter_congr fun p hp => ?_
    rw [address, address, getElem?_joined_of_lt (h.lt_of_mem hp)]
  have hlength := ((perm_joined cfg ip submission hno).filter
    fun p => (joined cfg s fd ip submission).address p.2 == ip').length_eq
  rw [List.filter_cons, hnew, hold] at hlength
  have hcount := h.accounted.ips ip'
  rw [sessionsOf, hlength, joined]
  dsimp only
  by_cases hip : ip' = ip
  · rw [hip, Function.update_self, if_pos (beq_self_eq_true ip), List.length_cons, ← hip, hcount]
    rfl
  · rw [Function.update_of_ne hip, if_neg (fun he => hip (beq_iff_eq.mp he).symm), hcount]

theorem Inv.joined (cfg : Config) (ip : Bytes) (submission : Bool) (h : Inv lim s)
    (hno : ∀ j, (fd, j) ∉ s.sessions) (hopen : s.isOpen fd = true)
    (hentry : (s.fds fd).isSome = true) (hless : s.connCount < lim.maxConn) :
    Inv lim (joined cfg s fd ip submission) := by
  have hperm := perm_joined cfg ip submission hno
  have hcount := h.accounted.conns
  have hwrap : wrap (s.connCount + 1) = s.connCount + 1 :=
    wrap_of_small (by omega) (Int.lt_of_le_of_lt hless lim.maxConn_lt)
  have hmem : ∀ {fd' j}, (fd', j) ∈ (Server.joined cfg s fd ip submission).sessions ↔
      (fd' = fd ∧ j = s.conns.length) ∨ (fd', j) ∈ s.sessions := by
    intro fd' j
    rw [hperm.mem_iff, List.mem_cons, Prod.mk.injEq]
  constructor
  · refine ⟨?_, h.ips_joined hno, ?_, ?_⟩
    · rw [hperm.length_eq, List.length_cons, Server.joined]
      dsimp only
      rw [hwrap, hcount]
      rfl
    · intro ip' n (hn : Function.update s.ipConns ip _ ip' = some n)
      by_cases hip : ip' = ip
      · rw [hip, Function.update_self] at hn
        cases hn
        exact Int.lt_add_one_of_le (h.ips_nonneg ip)
      · rw [Function.update_of_ne hip] at hn
        exact h.accounted.ips_pos ip' n hn
    · intro fd' j hj
      rcases hmem.mp hj with ⟨rfl, _⟩ | hj
      · exact ⟨hopen, hentry⟩
      · exact h.accounted.left fd' j hj
  · refine (hperm.map Prod.fst).nodup_iff.mpr (List.nodup_cons.mpr ⟨?_, h.keys⟩)
    intro hk
    obtain ⟨⟨fd', j⟩, hm, rfl⟩ := List.mem_map.mp hk
    exact hno j hm
  · have hmax : s.connCount + 1 ≤ max 0 lim.maxConn :=
      (Int.add_one_le_of_lt hless).trans (Int.le_max_right _ _)
    rw [Server.joined]
    dsimp only
    rw [hwrap]
    exact hmax
  · intro fd' j hj
    rcases hmem.mp hj with ⟨rfl, rfl⟩ | hj
    · exact ⟨_, getElem?_joined_self, rfl⟩
    · obtain ⟨c, hc, hfd⟩ := h.known fd' j hj
      exact ⟨c, (getElem?_joined_of_lt (h.lt_of_mem hj)).trans hc, hfd⟩
  · intro fd' e he
    have hcap := h.captures fd' e he
    exact ⟨fun j hj => hmem.mpr (Or.inr (hcap.readCb j hj)),
      fun j next hj => hmem.mpr (Or.inr (hcap.writeCb j next hj))⟩
  · intro j c hc hunclosed
    have hlt : j < s.conns.length + 1 := by
      have := (List.getElem?_eq_some_iff.mp hc).1
      rwa [Server.joined, List.length_concat] at this
    rcases Nat.lt_succ_iff_lt_or_eq.mp hlt with hlt | rfl
    · rw [getElem?_joined_of_lt hlt] at hc
      exact hmem.mpr (Or.inr (h.unclosed j c hc hunclosed))
    · rw [getElem?_joined_self] at hc
      cases hc
      exact hmem.mpr (Or.inl ⟨rfl, rfl⟩)

end Joined

theorem Inv.setIdleTimeout (h : Inv lim s) (seconds : Int) :
    Inv lim (s.setIdleTimeout fd seconds) := by
  rw [Server.setIdleTimeout]
  split
  · exact h
  · rename_i e he
    exact h.setEntry ⟨(h.captures fd e he).readCb, (h.captures fd e he).writeCb⟩

theorem sessions_setIdleTimeout (seconds : Int) :
    (s.setIdleTimeout fd seconds).sessions = s.sessions := by
  rw [setIdleTimeout]
  split <;> rfl

theorem Inv.onAccept (h : Inv lim s) (hno : ∀ j, (fd, j) ∉ s.sessions)
    (hopen : s.isOpen fd = true) (hentry : (s.fds fd).isSome = true) (ip : Bytes)
    (submission : Bool) : Inv lim (s.onAccept cfg lim fd ip submission) := by
  rw [Server.onAccept]
  split
  · exact h.setOpen hno false
  · rename_i s' hs'
    have hrelease := h.ipRelease_acquired hs'
    rw [ipAcquire] at hs'
    split at hs'
    · cases hs'
    · cases hs'
      split
      · refine hrelease.setOpen (fun j hj => hno j ?_) false
        rw [ipRelease] at hj
        split at hj <;> exact hj
      · rename_i hless
        have hjoined := h.joined cfg ip submission hno hopen hentry
          (Int.not_le.mp hless)
        have hmem : (fd, s.conns.length) ∈ (Server.joined cfg s fd ip submission).sessions :=
          (perm_joined cfg ip submission hno).mem_iff.mpr List.mem_cons_self
        dsimp only
        split
        · refine (After.asyncWrite (hjoined.setIdleTimeout lim.idleTimeout) ?_ .greeted).inv
          rw [sessions_setIdleTimeout]
          exact hmem
        · exact (After.asyncWrite hjoined hmem .greeted).inv

/-! ### The step -/

/-- A descriptor without a read callback may be closed when its session has been greeted:
there is none. -/
theorem Inv.notMem_of_greeted {e : Entry} (h : Inv lim s) (he : s.fds fd = some e)
    (hgreeted : s.greeted fd = true) (hnone : e.readCb = none) : ∀ j, (fd, j) ∉ s.sessions := by
  intro j hm
  rw [greeted, AssocList.lookup_of_mem h.keys hm, he, Option.bind_some, hnone] at hgreeted
  cases hgreeted

/-- One step keeps the invariant. -/
theorem step_inv {a : Action} {s' : Server} (hstep : Step cfg lim s a s') (hok : Careful s a)
    (h : Inv lim s) : Inv lim s' := by
  cases a with
  | accept fd ip submission =>
    rw [Step, step] at hstep
    split at hstep
    · cases hstep
    · rename_i hfree
      cases hstep
      have hno : ∀ j, (fd, j) ∉ s.sessions := fun j hm => hfree (h.accounted.left fd j hm).1
      have hopen := (h.setOpen hno true).setEntry
        (⟨nofun, nofun⟩ : Captures _ fd ⟨none, none, false⟩)
      refine hopen.onAccept hno ?_ ?_ ip submission
      · exact Function.update_self ..
      · exact congrArg Option.isSome (setEntry_fds_self _)
  | readable fd reads =>
    rw [Step, step, Option.map_eq_some_iff] at hstep
    obtain ⟨e, he, rfl⟩ := hstep
    refine h.readLoop reads (h.captures fd e he).readCb fun hnone => ?_
    rw [Careful, careful, Bool.or_eq_true, List.all_eq_true] at hok
    refine hok.imp (fun hgreeted => h.notMem_of_greeted he hgreeted hnone) fun hall r hr => ?_
    have := hall r hr
    cases r with
    | data first rest => exact ⟨first, rest, rfl⟩
    | fin => cases this
    | error => cases this
  | writable fd =>
    rw [Step, step] at hstep
    split at hstep
    · rename_i e he
      obtain ⟨⟨i, next⟩, hcb, rfl⟩ := Option.map_eq_some_iff.mp hstep
      have hm := (h.captures fd e he).writeCb i next hcb
      have hentry := h.setEntry (e := { e with writeCb := none })
        ⟨(h.captures fd e he).readCb, fun _ _ hnone => nomatch hnone⟩
      exact (After.written hentry hm next).inv
    · cases hstep
  | expire fd =>
    rw [Step, step] at hstep
    split at hstep
    · rename_i e he
      split at hstep
      · cases hstep
        exact h.hangUp (h.captures fd e he).readCb (h.notMem_of_greeted he hok)
      · cases hstep
    · cases hstep
  | workerDone i accepted =>
    rw [Step, step] at hstep
    split at hstep
    · rename_i c hc
      split at hstep
      · have hmod := h.modifySession (i := i)
          (f := fun session => { session with working := none }) (fun _ => rfl) fun _ => id
        cases hstep
        split
        · exact hmod
        · rename_i hunclosed
          have hm := h.unclosed i c hc (Bool.not_eq_true _ ▸ hunclosed)
          refine (After.asyncWrite hmod ?_ .delivered).inv
          rw [modifySession_of_getElem hc]
          exact hm
      · cases hstep
    · cases hstep

end Invariant

/-! ## Runs -/

/-- In every run in which the loop closes no descriptor of a session before the banner has been
written, the counters are right. -/
theorem accounted_of_run (cfg : Config) (lim : Limits) (s : Server)
    (h : RunWhere (Step cfg lim) Careful start s) : Accounted s := by
  refine (RunWhere.keeps (I := Inv lim) ?_ h start_inv).accounted
  intro s a s' hstep hok hinv
  exact step_inv hstep hok hinv

/-- Two clients connect, and one of them hangs up. -/
theorem accounted_of_run_two :
    ∃ s : Server, s.connCount = 1 ∧ s.sessions = [(6, 1)] ∧ Accounted s := by
  have hrun : stepsWhere (step mailConfig .default) careful start
      [.accept 5 (ascii "192.0.2.1") false, .accept 6 (ascii "192.0.2.1") false, .writable 6,
        .writable 5, .readable 5 [.fin]] = some _ := rfl
  exact ⟨_, rfl, rfl, accounted_of_run mailConfig .default _ (runWhere_of_stepsWhere hrun)⟩

/-- The loop is busy until the sweep finds a client whose banner is still to be written.  Its
descriptor is closed and accepted again: `conn_count` says 2 where there is one session. -/
theorem not_accounted : ∃ s : Server, Run (Step mailConfig .default) start s ∧ s.connCount = 2 ∧
    s.sessions = [(5, 1)] ∧ ¬ Accounted s := by
  have hrun : [.accept 5 (ascii "192.0.2.1") false, .expire 5,
      .accept 5 (ascii "192.0.2.2") false].foldlM (step mailConfig .default) start = some _ := rfl
  refine ⟨_, run_of_foldlM hrun, rfl, rfl, fun h => ?_⟩
  exact absurd h.conns (by decide)

end Server

end Smtp

end Look
