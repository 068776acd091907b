/-
A stream of requests, one behind the other, on one connection.

A turn of the loop throws away what it has received and not used.  A request is
served with exactly its bytes when no segment of the stream holds bytes of two
requests; a client that does not wait for the response can send such segments, and
then the bytes behind the end of the first request are lost.
-/
import Mathlib.Algebra.Group.Int.Defs
import Mathlib.Algebra.Group.Nat.Defs
import Look.Net.Message

namespace Look

namespace Http

/-! ## A chunked body in a longer stream -/

/-- The reader when more reads come behind the ones that it has. -/
def Reader.also (r : Reader) (more : List Bytes) : Reader := { r with unread := r.unread ++ more }

@[simp]
theorem Reader.also_stream (r : Reader) (more : List Bytes) : (r.also more).stream = r.stream := rfl

@[simp]
theorem Reader.also_p (r : Reader) (more : List Bytes) : (r.also more).p = r.p := rfl

section Also

variable {cap : Nat} {phase phase' : Phase} {r r' : Reader} {e : Encoding}

theorem refill_also (more : List Bytes) (h : refill cap r = (true, r')) :
    refill cap (r.also more) = (true, r'.also more) := by
  obtain ⟨bytes, unread, hunread, hle, rfl⟩ := refill_true h
  have halso : (r.also more).unread = bytes :: (unread ++ more) := by
    rw [Reader.also, hunread]
    rfl
  rw [refill, halso]
  exact if_neg (Nat.not_lt.mpr hle)

theorem readSize_also (more : List Bytes) {line : Bytes}
    (h : readSize cap r line = .more phase' r') :
    readSize cap (r.also more) line = .more phase' (r'.also more) := by
  rw [readSize] at h ⊢
  dsimp only at h ⊢
  split at h
  · cases h
  · rename_i hdigits
    split at h
    · cases h
    · rename_i hfits
      rw [if_neg hdigits, if_neg hfits]
      split at h
      · rename_i hzero
        cases h
        rw [if_pos hzero]
        rfl
      · rename_i hzero
        split at h
        · cases h
        · rename_i hleft
          cases h
          rw [if_neg hzero]
          exact if_neg hleft

/-- A turn that goes on does the same when there is more behind. -/
theorem turn_also (more : List Bytes) (h : turn cap phase r = .more phase' r') :
    turn cap phase (r.also more) = .more phase' (r'.also more) := by
  cases phase with
  | size =>
    rw [turn] at h ⊢
    rw [r.also_stream, r.also_p]
    split at h
    · split at h
      · cases h
      · rename_i hshort
        rw [if_neg hshort]
        split at h
        · rename_i hrefill
          cases h
          rw [refill_also more hrefill]
        · cases h
    · exact readSize_also more h
  | data n =>
    rw [turn] at h ⊢
    rw [r.also_stream, r.also_p]
    split at h
    · rename_i hshort
      rw [if_pos hshort]
      split at h
      · rename_i hrefill
        cases h
        rw [refill_also more hrefill]
      · cases h
    · rename_i hlong
      rw [if_neg hlong]
      split at h
      · rename_i hend
        cases h
        exact if_pos hend
      · cases h
  | trailer =>
    rw [turn] at h ⊢
    rw [r.also_stream, r.also_p]
    split at h
    · split at h
      · rename_i hrefill
        cases h
        rw [refill_also more hrefill]
      · cases h
    · split at h
      · cases h
      · rename_i hline
        cases h
        exact if_neg hline

theorem turns_also (more : List Bytes) {x y : Phase × Reader} (h : Turns cap x y) :
    Turns cap (x.1, x.2.also more) (y.1, y.2.also more) := by
  induction h with
  | refl => exact .refl
  | tail _ hlast ih => exact ih.tail (turn_also more hlast)

theorem turn_done (h : turn cap phase r = .done r') : phase = .trailer := by
  cases phase with
  | size =>
    rw [turn] at h
    split at h
    · split at h
      · cases h
      · split at h <;> cases h
    · rw [readSize] at h
      grind
  | data n =>
    rw [turn] at h
    split at h
    · split at h <;> cases h
    · split at h <;> cases h
  | trailer => rfl

theorem Follows.refill_within (h : Follows e phase r) (hraw : e.bytes.length ≤ rawLimit cap)
    (hne : r.unread ≠ []) : ∃ r', Http.refill cap r = (true, r') := by
  obtain ⟨bytes, unread, hunread⟩ := List.exists_cons_of_ne_nil hne
  have hlen := congrArg List.length h.total
  rw [hunread, List.flatten_cons, List.length_append, List.length_append] at hlen
  rw [Http.refill, hunread]
  exact ⟨_, if_neg (by omega)⟩

/-- An encoding within the limit of the stream is read to its end, and no further. -/
theorem Follows.done (h : Follows e phase r) (hraw : e.bytes.length ≤ rawLimit cap)
    (ht : turn cap phase r = .done r') (more : List Bytes) :
    turn cap phase (r.also more) = .done (r'.also more) ∧ r'.unread = [] := by
  obtain rfl := turn_done ht
  obtain ⟨ts, hts, hdrop⟩ : ∃ ts, (∀ t ∈ ts, t ≠ [] ∧ cr ∉ t) ∧
      e.bytes.drop r.p = trailerBytes ts := by
    have hplace := h.place
    generalize r.out = out at hplace
    generalize e.bytes.drop r.p = rest at hplace ⊢
    cases hplace with
    | @trailer ts hts => exact ⟨ts, hts, rfl⟩
  -- Only the empty line is the last one, and nothing stands behind it.
  obtain ⟨line, rest, hline, hcr, hlast⟩ : ∃ line rest, trailerBytes ts = line ++ crlf ++ rest ∧
      cr ∉ line ∧ (line = [] → rest = []) := by
    cases ts with
    | nil => exact ⟨[], [], rfl, nofun, fun _ => rfl⟩
    | cons t ts =>
      refine ⟨t, trailerBytes ts, ?_, (hts t List.mem_cons_self).2, ?_⟩
      · simp only [trailerBytes, List.flatMap_cons, List.append_assoc]
      · exact fun hnil => absurd hnil (hts t List.mem_cons_self).1
  have havail := h.available.trans (hdrop.trans hline)
  rw [turn] at ht ⊢
  rw [r.also_stream, r.also_p]
  rcases await_line hcr havail with ⟨y, hbreak⟩ | ⟨hbreak, -, htail⟩
  · rw [hbreak] at ht ⊢
    dsimp only at ht ⊢
    split at ht
    · rename_i hempty
      cases ht
      refine ⟨if_pos hempty, ?_⟩
      rw [breakOn_eq hbreak, hlast (List.isEmpty_iff.mp hempty), List.append_nil,
        List.append_assoc] at havail
      have hnil : y ++ r.unread.flatten = [] :=
        List.append_right_eq_self.mp havail
      by_contra hne
      obtain ⟨bytes, unread, hunread⟩ := List.exists_cons_of_ne_nil hne
      rw [hunread, List.flatten_cons, List.append_eq_nil_iff, List.append_eq_nil_iff] at hnil
      exact (h.reads bytes (by rw [hunread]; exact List.mem_cons_self)).1 hnil.2.1
    · cases ht
  · obtain ⟨r1, hrefill⟩ := h.refill_within hraw (unread_ne_nil htail)
    rw [hbreak, hrefill] at ht
    cases ht

/-- The body of a chunked request, when the reads of the next requests stand behind
the reads of this one. -/
theorem readChunkedBody_also {buf : Bytes} {unread : List Bytes} (h : Cut e.bytes buf unread)
    (hbody : e.body.length ≤ cap) (hcap : cap < 2 ^ 63)
    (hlines : ∀ l ∈ e.sizeLines, l.text.length ≤ 63) (hraw : e.bytes.length ≤ rawLimit cap)
    (more : List Bytes) :
    ∃ r, readChunkedBody cap buf (unread ++ more) = .done r ∧ r.out = e.body ∧
      r.unread = more := by
  obtain ⟨y, hturns, hend⟩ := exists_end (x := (.size, Reader.start buf unread))
    (Sound.start cap buf unread)
  obtain ⟨hfollows, -⟩ := Follows.turns hturns (Follows.start h) hbody hcap
  have hout := hfollows.outcome hbody hcap
  generalize hlast : turn cap y.1 y.2 = last at hout hend
  cases hout with
  | @goes phase r' _ _ => exact absurd rfl (hend phase r')
  | @refuses status _ hnot => exact absurd ⟨hlines, Or.inl hraw⟩ hnot
  | @yields r hr =>
    obtain ⟨halso, hnil⟩ := hfollows.done hraw hlast more
    refine ⟨r.also more, ?_, hr, by rw [Reader.also, hnil]; rfl⟩
    have hrun := run_of_turns (turns_also more hturns) (Sound.start cap buf (unread ++ more))
      (Nat.lt_succ_self _) (by rw [halso]; exact nofun)
    exact hrun.trans halso

end Also

/-! ## Reading a message -/

namespace Message

variable {m : Message}

/-- The head is complete when all its bytes are there. -/
theorem breakOn_buffer {buf tail : Bytes} (h : buf ++ tail = m.bytes) :
    (breakOn crlfcrlf buf).isSome = true ↔ m.head.length ≤ buf.length := by
  constructor
  · intro hfound
    obtain ⟨⟨x, y⟩, hxy⟩ := Option.isSome_iff_exists.mp hfound
    have hall := breakOn_append tail hxy
    rw [h, bytes, m.breakOn_head, Option.some.injEq, Prod.mk.injEq] at hall
    have hlen := congrArg List.length (breakOn_eq hxy)
    rw [List.length_append, ← hall.1] at hlen
    exact hlen ▸ Nat.le_add_right _ _
  · intro hle
    have hbuf := eq_append_drop (h.trans rfl : buf ++ tail = m.head ++ m.payload.bytes) hle
    rw [hbuf, m.breakOn_head]
    rfl

/-- The turn reads up to the end of the head. -/
theorem readHead_eq {maxBody : Nat} (hm : m.Within maxBody) (buf : Bytes) {group : List Bytes}
    (more : List Bytes) (htotal : buf ++ group.flatten = m.bytes)
    (hreads : ∀ s ∈ group, s ≠ [] ∧ s.length ≤ 65536) :
    ∃ behind group', readHead buf (group ++ more) = some (m.head ++ behind, group' ++ more) ∧
      Cut m.payload.bytes behind group' := by
  induction group generalizing buf with
  | nil =>
    rw [List.flatten_nil, List.append_nil] at htotal
    refine ⟨m.payload.bytes, [], ?_, List.append_nil _, List.forall_mem_nil _⟩
    rw [readHead.eq_def, htotal, bytes, m.breakOn_head]
    rfl
  | cons s group ih =>
    rw [readHead.eq_def]
    by_cases hfound : (breakOn crlfcrlf buf).isSome = true
    · have hle := (breakOn_buffer htotal).mp hfound
      have hbuf := eq_append_drop (htotal.trans rfl : _ = m.head ++ m.payload.bytes) hle
      refine ⟨buf.drop m.head.length, s :: group, ?_, ?_, hreads⟩
      · rw [if_pos hfound, ← hbuf]
      · rw [hbuf, bytes, List.append_assoc] at htotal
        exact List.append_cancel_left htotal
    · have hlt := mt (breakOn_buffer htotal).mpr hfound
      have hs := hreads s List.mem_cons_self
      rw [List.flatten_cons, ← List.append_assoc] at htotal
      have hlimit : ¬ headLimit < (buf ++ s).length := by
        have hlen := congrArg List.length htotal
        rw [List.length_append] at hlen
        have hlength : (buf ++ s).length = buf.length + s.length := List.length_append
        rcases hm.head with h | h <;> omega
      obtain ⟨behind, group', hread, hcut⟩ := ih (buf ++ s) htotal fun x hx =>
        hreads x (List.mem_cons_of_mem _ hx)
      refine ⟨behind, group', ?_, hcut⟩
      rw [if_neg hfound]
      show (if headLimit < (buf ++ s).length then none else readHead (buf ++ s) (group ++ more)) = _
      rw [if_neg hlimit, hread]

/-- A body of a given length, in the reads that hold it. -/
theorem readLength_eq {n : Nat} {body : Bytes} {group : List Bytes} (more : List Bytes)
    (hn : (body ++ group.flatten).length = n) (hreads : ∀ s ∈ group, s ≠ [] ∧ s.length ≤ 65536) :
    readLength n body (group ++ more) = some (body ++ group.flatten, more) := by
  induction group generalizing body with
  | nil =>
    rw [List.flatten_nil, List.append_nil] at *
    rw [readLength.eq_def, if_pos (by omega)]
    rfl
  | cons s group ih =>
    have hs := List.length_pos_of_ne_nil (hreads s List.mem_cons_self).1
    rw [List.flatten_cons, ← List.append_assoc] at *
    have hlen := hn
    rw [List.length_append, List.length_append] at hlen
    rw [readLength.eq_def, if_neg (by omega)]
    show readLength n (body ++ s.take (n - body.length)) (group ++ more) = _
    rw [List.take_of_length_le (by omega)]
    exact ih hn fun x hx => hreads x (List.mem_cons_of_mem _ hx)

/-- The body, in the reads that hold it. -/
theorem readBody_eq {maxBody : Nat} (hm : m.Within maxBody) (hcap : maxBody < 2 ^ 63)
    {behind : Bytes} {group : List Bytes} (more : List Bytes)
    (h : Cut m.payload.bytes behind group) :
    readBody maxBody m.payload.framing behind (group ++ more) =
      .complete m.payload.body more := by
  have hbody := hm.body
  have hchunked := hm.chunked
  cases hpayload : m.payload with
  | empty =>
    rw [hpayload] at h
    have hgroup : group = [] := by
      by_contra hne
      obtain ⟨s, rest, rfl⟩ := List.exists_cons_of_ne_nil hne
      have htotal : behind ++ (s :: rest).flatten = [] := h.total
      rw [List.flatten_cons, List.append_eq_nil_iff, List.append_eq_nil_iff] at htotal
      exact (h.reads s List.mem_cons_self).1 htotal.2.1
    rw [hgroup]
    rfl
  | length body =>
    rw [hpayload] at h
    have htotal : behind ++ group.flatten = body := h.total
    have hle : behind.length ≤ body.length := by
      rw [← htotal, List.length_append]
      exact Nat.le_add_right _ _
    have hread := readLength_eq (n := body.length) more (congrArg List.length htotal) h.reads
    rw [Payload.framing, readBody, List.take_of_length_le hle, hread, htotal]
    rfl
  | chunked e =>
    rw [hpayload] at h hbody
    obtain ⟨hlines, hraw⟩ := hchunked e hpayload
    obtain ⟨r, hr, hout, hunread⟩ := readChunkedBody_also h hbody hcap hlines hraw more
    rw [Payload.framing, readBody, hr, ← hunread]
    exact congrArg (BodyResult.complete · r.unread) hout

/-- One turn of the loop, when the segments at the front hold the message and nothing
else. -/
theorem serve_eq {srv : Server} (calls : List Request) (hm : m.Within srv.maxBody)
    (hcap : srv.maxBody < 2 ^ 63) (hfields : Consistent m.fields) {group : List Bytes}
    (more : List Bytes) (hgroup : group.flatten = m.bytes)
    (hreads : ∀ s ∈ group, s ≠ [] ∧ s.length ≤ 65536) :
    ∃ req, m.Parsed req ∧ serve srv calls (group ++ more) =
      dispatch srv calls { req with body := m.payload.body } more := by
  obtain ⟨behind, group', hhead, hcut⟩ := readHead_eq hm [] more hgroup hreads
  obtain ⟨req, hreq, hparsed⟩ := parseRequest_head hfields behind
  have hbehind : behindHead (m.head ++ behind) = behind := by
    rw [behindHead, m.breakOn_head]
    rfl
  refine ⟨req, hparsed, ?_⟩
  rw [serve, hhead]
  dsimp only
  rw [hreq]
  dsimp only
  rw [hparsed.framing_eq hm]
  dsimp only
  rw [hbehind, readBody_eq hm hcap more hcut]

end Message

/-! ## The whole stream -/

/-- The handler was called with the message, in a turn that has received its bytes and
no others. -/
def Message.ServedBy (m : Message) (call : Call) : Prop :=
  m.Delivered call.req ∧ call.received.flatten = m.bytes

/-- Every segment has bytes of one message only. -/
def Aligned (ms : List Message) (segments : List Bytes) : Prop :=
  ∃ groups : List (List Bytes), segments = groups.flatten ∧
    groups.map List.flatten = ms.map Message.bytes

section Stream

variable {srv : Server} {ms : List Message} {segments : List Bytes}

theorem dropLast_keeps {m : Message} (h : m.KeepsAlive) :
    (∀ m' ∈ (m :: ms).dropLast, m'.KeepsAlive) ↔ ∀ m' ∈ ms.dropLast, m'.KeepsAlive := by
  cases ms with
  | nil => exact ⟨fun _ => nofun, fun _ => nofun⟩
  | cons next ms =>
    rw [List.dropLast_cons_of_ne_nil (List.cons_ne_nil next ms), List.forall_mem_cons]
    exact ⟨fun hall => hall.2, fun hall => ⟨h, hall⟩⟩

/-- When each message has segments of its own, only an upgrade or the end of the
connection keeps a message from the handler. -/
theorem connection_aligned (hresponds : ∀ calls keep, srv.responds calls keep = keep)
    (hcap : srv.maxBody < 2 ^ 63) (hms : ∀ m ∈ ms, m.Within srv.maxBody)
    (hfields : ∀ m ∈ ms, Consistent m.fields) {groups : List (List Bytes)}
    (hgroups : groups.map List.flatten = ms.map Message.bytes)
    (hreads : ∀ s ∈ groups.flatten, s ≠ [] ∧ s.length ≤ 65536) {fuel : Nat}
    (hfuel : groups.flatten.length < fuel) (calls : List Request) :
    List.Forall₂ Message.ServedBy ms (connection srv fuel calls groups.flatten) ↔
      (∀ m ∈ ms, ¬ m.Upgrades srv) ∧ ∀ m ∈ ms.dropLast, m.KeepsAlive := by
  obtain ⟨fuel, rfl⟩ : ∃ k, fuel = k + 1 := ⟨fuel - 1, by omega⟩
  induction ms generalizing groups fuel calls with
  | nil =>
    obtain rfl : groups = [] := List.map_eq_nil_iff.mp hgroups
    have hnone : connection srv (fuel + 1) calls [] = [] := rfl
    rw [List.flatten_nil, hnone]
    exact ⟨fun _ => ⟨List.forall_mem_nil _, List.forall_mem_nil _⟩, fun _ => .nil⟩
  | cons m ms ih =>
    obtain ⟨g, gs, rfl, hg, hgs⟩ : ∃ g gs, groups = g :: gs ∧ g.flatten = m.bytes ∧
        gs.map List.flatten = ms.map Message.bytes := by
      cases groups with
      | nil => cases hgroups
      | cons g gs =>
        rw [List.map_cons, List.map_cons, List.cons.injEq] at hgroups
        exact ⟨g, gs, rfl, hgroups.1, hgroups.2⟩
    have hm := hms m List.mem_cons_self
    have hconsistent := hfields m List.mem_cons_self
    rw [List.flatten_cons] at hreads hfuel ⊢
    obtain ⟨req, hparsed, hserve⟩ := Message.serve_eq calls hm hcap hconsistent gs.flatten hg
      fun s hs => hreads s (List.mem_append_left _ hs)
    have hgpos : 0 < g.length := by
      refine List.length_pos_of_ne_nil ?_
      rintro rfl
      have hbytes : m.bytes = [] := hg.symm
      simp [Message.bytes, Message.head, crlfcrlf] at hbytes
    have htaken : (g ++ gs.flatten).take ((g ++ gs.flatten).length - gs.flatten.length) = g := by
      rw [List.length_append, Nat.add_sub_cancel, List.take_left]
    rw [List.length_append] at hfuel
    rw [connection, hserve]
    have hserved : m.ServedBy ⟨{ req with body := m.payload.body }, g⟩ :=
      ⟨hparsed.delivered hconsistent, hg⟩
    rcases hparsed.dispatch_eq hconsistent hresponds with
      ⟨hupgrades, hdispatch⟩ | ⟨hnot, stays, hstays, hdispatch⟩
    · rw [hdispatch]
      exact ⟨fun h => (by cases h), fun h => absurd hupgrades (h.1 m List.mem_cons_self)⟩
    · rw [hdispatch]
      dsimp only
      rw [htaken]
      cases stays with
      | false =>
        -- The connection is closed behind the call, so this must be the last message.
        have hclose : ¬ m.KeepsAlive := fun h => Bool.false_ne_true (hstays.mpr h)
        rw [if_neg Bool.false_ne_true, List.forall₂_cons, List.forall₂_nil_right_iff]
        constructor
        · rintro ⟨-, rfl⟩
          refine ⟨?_, List.forall_mem_nil _⟩
          intro m' hm'
          rw [List.mem_singleton] at hm'
          rw [hm']
          exact hnot
        · rintro ⟨-, hkeeps⟩
          refine ⟨hserved, ?_⟩
          by_contra hne
          rw [List.dropLast_cons_of_ne_nil hne] at hkeeps
          exact hclose (hkeeps m List.mem_cons_self)
      | true =>
        obtain ⟨fuel, rfl⟩ : ∃ k, fuel = k + 1 := ⟨fuel - 1, by omega⟩
        have hkeep : m.KeepsAlive := hstays.mp rfl
        have hrest := ih (fun m' hm' => hms m' (List.mem_cons_of_mem _ hm'))
          (fun m' hm' => hfields m' (List.mem_cons_of_mem _ hm')) hgs
          (fun s hs => hreads s (List.mem_append_right _ hs))
          (calls ++ [{ req with body := m.payload.body }]) fuel (by omega)
        rw [if_pos rfl, List.forall₂_cons, hrest, List.forall_mem_cons, dropLast_keeps hkeep]
        exact ⟨fun h => ⟨⟨hnot, h.2.1⟩, h.2.2⟩, fun h => ⟨hserved, h.1.2, h.2⟩⟩

/-- What the server can deliver: no segment has bytes of two messages, repeated
fields agree, no message is an upgrade, and none but the last ends the connection. -/
structure Deliverable (srv : Server) (ms : List Message) (segments : List Bytes) : Prop where
  aligned : Aligned ms segments
  fields : ∀ m ∈ ms, Consistent m.fields
  plain : ∀ m ∈ ms, ¬ m.Upgrades srv
  kept : ∀ m ∈ ms.dropLast, m.KeepsAlive

/-- What calls with exactly the messages say about the messages. -/
theorem served_messages {calls : List Call} (h : List.Forall₂ Message.ServedBy ms calls) :
    (calls.map Call.received).map List.flatten = ms.map Message.bytes ∧
    ∀ m ∈ ms, Consistent m.fields := by
  induction h with
  | nil => exact ⟨rfl, nofun⟩
  | cons hserved _ ih =>
    refine ⟨?_, List.forall_mem_cons.mpr ⟨hserved.1.consistent, ih.2⟩⟩
    rw [List.map_cons, List.map_cons, List.map_cons, hserved.2, ih.1]

/-- When each call has received one message, nothing is left of the stream. -/
theorem aligned_of_served (hsegments : ∀ s ∈ segments, s ≠ [] ∧ s.length ≤ 65536)
    (hstream : segments.flatten = ms.flatMap Message.bytes)
    (h : List.Forall₂ Message.ServedBy ms (handleConnection srv segments)) :
    Aligned ms segments := by
  obtain ⟨rest, hrest⟩ := connection_received srv (segments.length + 1) [] segments
  change segments = ((handleConnection srv segments).map Call.received).flatten ++ rest at hrest
  obtain ⟨hbytes, -⟩ := served_messages h
  generalize (handleConnection srv segments).map Call.received = groups at hrest hbytes
  have hflat : groups.flatten.flatten = segments.flatten := by
    rw [List.flatten_flatten, hbytes, hstream, List.flatMap_def]
  have hnil : rest.flatten = [] := by
    rw [hrest, List.flatten_append] at hflat
    exact List.append_right_eq_self.mp hflat.symm
  have hempty : rest = [] := by
    cases rest with
    | nil => rfl
    | cons s rest =>
      rw [List.flatten_cons, List.append_eq_nil_iff] at hnil
      refine absurd hnil.1 (hsegments s ?_).1
      rw [hrest]
      exact List.mem_append_right _ List.mem_cons_self
  refine ⟨groups, ?_, hbytes⟩
  rw [hrest, hempty, List.append_nil]

/-- The handler is called once for every message of the stream, in order, with exactly
its method, path, fields and body, and no byte is lost or counted as part of another
message, exactly when the server can deliver the stream. -/
theorem handleConnection_spec (srv : Server) (ms : List Message) (segments : List Bytes)
    (hresponds : ∀ calls keep, srv.responds calls keep = keep) (hcap : srv.maxBody < 2 ^ 63)
    (hms : ∀ m ∈ ms, m.Within srv.maxBody)
    (hsegments : ∀ s ∈ segments, s ≠ [] ∧ s.length ≤ 65536)
    (hstream : segments.flatten = ms.flatMap Message.bytes) :
    List.Forall₂ Message.ServedBy ms (handleConnection srv segments) ↔
      Deliverable srv ms segments := by
  constructor
  · intro h
    obtain ⟨-, hfields⟩ := served_messages h
    obtain ⟨groups, rfl, hgroups⟩ := aligned_of_served hsegments hstream h
    obtain ⟨hplain, hkept⟩ := (connection_aligned hresponds hcap hms hfields hgroups hsegments
      (Nat.lt_succ_self _) []).mp h
    exact ⟨⟨groups, rfl, hgroups⟩, hfields, hplain, hkept⟩
  · rintro ⟨⟨groups, rfl, hgroups⟩, hfields, hplain, hkept⟩
    exact (connection_aligned hresponds hcap hms hfields hgroups hsegments
      (Nat.lt_succ_self _) []).mpr ⟨hplain, hkept⟩

end Stream

/-- A server whose handler answers every request and changes no flag. -/
def plainServer : Server := ⟨100, false, false, fun _ keep => keep⟩

def hostField : Field where
  name := ascii "Host"
  before := [sp]
  value := ascii "a"
  after := []
  name_token := by decide
  before_blank := by decide
  after_blank := by decide
  value_plain := by decide
  value_trimmed := by decide

def chunkedField : Field where
  name := ascii "Transfer-Encoding"
  before := [sp]
  value := ascii "chunked"
  after := []
  name_token := by decide
  before_blank := by decide
  after_blank := by decide
  value_plain := by decide
  value_trimmed := by decide

def getMessage : Message where
  method := ascii "GET"
  target := ascii "/"
  fields := [hostField]
  payload := .empty
  method_token := by decide
  target_plain := by decide
  announced := ⟨by decide, by decide⟩

def postMessage : Message where
  method := ascii "POST"
  target := ascii "/?x"
  fields := [hostField, chunkedField]
  payload := .chunked hiEncoding
  method_token := by decide
  target_plain := by decide
  announced := ⟨by decide, ascii "chunked", by decide, by decide⟩

theorem handleConnection_spec_two : List.Forall₂ Message.ServedBy [getMessage, postMessage]
    (handleConnection plainServer [getMessage.bytes, postMessage.head, hiEncoding.bytes]) := by
  have hget : getMessage.Within 100 :=
    ⟨Or.inl (by decide), by decide, by decide, nofun⟩
  have hpost : postMessage.Within 100 := by
    refine ⟨Or.inl (by decide), by decide, by decide, ?_⟩
    rintro e ⟨⟩
    exact ⟨by decide, by decide⟩
  refine (handleConnection_spec plainServer [getMessage, postMessage]
    [getMessage.bytes, postMessage.head, hiEncoding.bytes] (fun _ _ => rfl) (by decide) ?_
    (by decide) (by decide)).mpr ⟨?_, ?_, ?_, ?_⟩
  · exact List.forall_mem_cons.mpr ⟨hget, List.forall_mem_singleton.mpr hpost⟩
  · exact ⟨[[getMessage.bytes], [postMessage.head, hiEncoding.bytes]], rfl, rfl⟩
  · refine List.forall_mem_cons.mpr ⟨?_, List.forall_mem_singleton.mpr ?_⟩
    · rw [Consistent]
      decide
    · rw [Consistent]
      decide
  · rintro m - (⟨h, -⟩ | ⟨h, -⟩) <;> cases h
  · rintro m hm ⟨f, hf, hname, -⟩
    obtain rfl := List.mem_singleton.mp hm
    obtain rfl := List.mem_singleton.mp hf
    exact absurd hname (by decide)

/-- Two requests in one segment: the second is lost. -/
theorem handleConnection_pipelined :
    ¬ List.Forall₂ Message.ServedBy [getMessage, getMessage]
      (handleConnection plainServer [getMessage.bytes ++ getMessage.bytes]) := by
  intro h
  have hone : (handleConnection plainServer [getMessage.bytes ++ getMessage.bytes]).length = 1 := by
    decide +kernel
  have hlength := h.length_eq
  rw [hone] at hlength
  cases hlength

end Http

end Look
