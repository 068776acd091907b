/-
The writers of a file take turns.

Each gate agrees with its connections: who has it is being served, who waits has a number
that was not served yet, and what the gate skips nobody waits for.  So one connection of a file
has its gate at a time, in the order of the tickets (`fair_of_run`), as long as the file is
opened by one path.
-/
import Look.Db.WriteGate

namespace Look

namespace WriteGate

variable {C : Type}

/-! ## The gate and the connections -/

def Holds (s : State C) (path : String) (c : C) : Prop :=
  (s.conns c).gate = some path ∧ (s.conns c).gateHeld = true

def Waits (s : State C) (path : String) (c : C) (t : Nat) : Prop :=
  (s.conns c).gate = some path ∧ (s.conns c).phase = .waiting t

/-- What is so of each connection on its own. -/
structure Connection.Ok (conn : Connection) : Prop where
  queued : ∀ t, conn.phase = .waiting t → conn.gateHeld = false
  retrying : conn.phase = .retrying → conn.gateHeld = false
  busy : conn.phase ≠ .idle → conn.connected = true
  held : conn.gateHeld = true → conn.connected = true
  gated : conn.gateHeld = true → ∃ path, conn.gate = some path
  idle : conn.phase = .idle → conn.autocommit = true → conn.gateHeld = false

structure Kept {F : Type} (file : String → F) (s : State C) : Prop where
  ledger : ∀ path, (s.gates path).Ledger (Holds s path) (Waits s path)
  ok : ∀ c, (s.conns c).Ok
  same : ∀ {c c' path path'}, (s.conns c).connected = true → (s.conns c').connected = true →
    (s.conns c).gate = some path → (s.conns c').gate = some path' → file path = file path' →
    path = path'

section Kept

variable {F : Type} {file : String → F} {s s' : State C} {c : C} {path : String}
  {conn : Connection}

theorem Kept.fair (h : Kept file s) : Fair file s where
  sole := by
    intro c c' path path' hc hc' hfile hheld hheld'
    obtain rfl := h.same ((h.ok c).held hheld) ((h.ok c').held hheld') hc hc' hfile
    exact (h.ledger path).sole ⟨hc, hheld⟩ ⟨hc', hheld'⟩
  inOrder := by
    intro path
    refine ⟨(h.ledger path).sorted, ?_⟩
    intro c t hc hphase n hn
    have hle := ((h.ledger path).waiting ⟨hc, hphase⟩).1
    rcases (h.ledger path).past n hn with hlt | ⟨rfl, x, hx⟩
    · exact Nat.lt_of_lt_of_le hlt hle
    · refine Nat.lt_of_le_of_ne hle ?_
      rintro rfl
      exact ((h.ledger path).holder hx).2 c ⟨hc, hphase⟩
  passed := by
    intro path hnobody
    rcases Nat.eq_or_lt_of_le (h.ledger path).le with heq | hlt
    · exact .inl heq
    · rcases (h.ledger path).cover _ (Nat.le_refl _) hlt with hleft | hwaiting | ⟨-, c, hc⟩
      · exact absurd ((h.ledger path).abandoned _ hleft).1 (Nat.lt_irrefl _)
      · exact .inr hwaiting
      · exact absurd hc.2 (by rw [hnobody c hc.1]; exact Bool.false_ne_true)
  released c := (h.ok c).idle

theorem start_kept : Kept file (State.start : State C) where
  ledger _ := .of_start (fun _ hh => nomatch hh.2) fun _ _ hw => nomatch hw.2
  ok _ := ⟨fun _ _ => rfl, fun _ => rfl, fun hne => absurd rfl hne, nofun, nofun, fun _ _ => rfl⟩
  same := nofun

variable [DecidableEq C]

theorem holds_update {gates : String → SqliteWriteGate} {x : C} :
    Holds ⟨gates, Function.update s.conns c conn⟩ path x ↔
      (x = c ∧ conn.gate = some path ∧ conn.gateHeld = true) ∨ (x ≠ c ∧ Holds s path x) := by
  by_cases hx : x = c
  · subst hx
    simp [Holds]
  · simp [Holds, hx]

theorem waits_update {gates : String → SqliteWriteGate} {x : C} {t : Nat} :
    Waits ⟨gates, Function.update s.conns c conn⟩ path x t ↔
      (x = c ∧ conn.gate = some path ∧ conn.phase = .waiting t) ∨ (x ≠ c ∧ Waits s path x t) := by
  by_cases hx : x = c
  · subst hx
    simp [Waits]
  · simp [Waits, hx]

/-- Every connection of a state in which one connection has changed. -/
theorem ok_update (h : ∀ c, (s.conns c).Ok) (hok : conn.Ok) (x : C) :
    (Function.update s.conns c conn x).Ok :=
  (Function.forall_update_iff s.conns fun _ conn => conn.Ok).mpr ⟨hok, fun x _ => h x⟩ x

theorem same_update (h : Kept file s)
    (hnew : conn.connected = true → ∀ path, conn.gate = some path →
      ((s.conns c).connected = true ∧ (s.conns c).gate = some path) ∨
        ∀ {x path'}, (s.conns x).connected = true → (s.conns x).gate = some path' →
          file path' = file path → path' = path)
    {x x' : C} {path path' : String}
    (hx : (Function.update s.conns c conn x).connected = true)
    (hx' : (Function.update s.conns c conn x').connected = true)
    (hpath : (Function.update s.conns c conn x).gate = some path)
    (hpath' : (Function.update s.conns c conn x').gate = some path')
    (hfile : file path = file path') : path = path' := by
  by_cases hxc : x = c <;> by_cases hxc' : x' = c
  · subst hxc
    subst hxc'
    exact Option.some.inj (hpath.symm.trans hpath')
  · subst hxc
    rw [Function.update_self] at hx hpath
    rw [Function.update_of_ne hxc'] at hx' hpath'
    rcases hnew hx path hpath with ⟨hconnected, hgate⟩ | hcareful
    · exact h.same hconnected hx' hgate hpath' hfile
    · exact (hcareful hx' hpath' hfile.symm).symm
  · subst hxc'
    rw [Function.update_self] at hx' hpath'
    rw [Function.update_of_ne hxc] at hx hpath
    rcases hnew hx' path' hpath' with ⟨hconnected, hgate⟩ | hcareful
    · exact h.same hx hconnected hpath hgate hfile
    · exact hcareful hx hpath hfile
  · rw [Function.update_of_ne hxc] at hx hpath
    rw [Function.update_of_ne hxc'] at hx' hpath'
    exact h.same hx hx' hpath hpath' hfile

/-- A connection that has the gate, or waits for it, as before. -/
theorem Kept.setConn (h : Kept file s) (hgate : conn.gate = (s.conns c).gate)
    (hheld : conn.gateHeld = (s.conns c).gateHeld)
    (hphase : ∀ t, conn.phase = .waiting t ↔ (s.conns c).phase = .waiting t) (hok : conn.Ok)
    (hconnected : conn.connected = true → (s.conns c).connected = true) :
    Kept file (s.setConn c conn) where
  ledger path := by
    refine (h.ledger path).congr (fun x => ?_) fun x t => ?_
    · refine (holds_update (s := s)).trans ?_
      by_cases hx : x = c
      · subst hx
        simp [Holds, hgate, hheld]
      · simp [hx]
    · refine (waits_update (s := s)).trans ?_
      by_cases hx : x = c
      · subst hx
        simp [Waits, hgate, hphase]
      · simp [hx]
  ok := ok_update h.ok hok
  same := same_update h fun hnew _ hpath => .inl ⟨hconnected hnew, hgate ▸ hpath⟩

/-- A connection and its gate have changed. -/
theorem Kept.setGate (h : Kept file s) {gate : SqliteWriteGate}
    (hpath : (s.conns c).gate = some path) (hgate : conn.gate = some path) (hok : conn.Ok)
    (hconnected : conn.connected = true → (s.conns c).connected = true)
    (hledger : gate.Ledger (fun x => (x = c ∧ conn.gateHeld = true) ∨ (x ≠ c ∧ Holds s path x))
      fun x t => (x = c ∧ conn.phase = .waiting t) ∨ (x ≠ c ∧ Waits s path x t)) :
    Kept file ((s.setGate path gate).setConn c conn) where
  ledger path' := by
    by_cases hp : path' = path
    · subst hp
      show (Function.update s.gates path' gate path').Ledger _ _
      rw [Function.update_self]
      refine hledger.congr (fun x => ?_) fun x t => ?_
      · refine (holds_update (s := s)).trans ?_
        rw [hgate, eq_self, true_and]
      · refine (waits_update (s := s)).trans ?_
        rw [hgate, eq_self, true_and]
    · have hne : some path ≠ some path' := fun heq => hp (Option.some.inj heq).symm
      show (Function.update s.gates path gate path').Ledger _ _
      rw [Function.update_of_ne hp]
      refine (h.ledger path').congr (fun x => ?_) fun x t => ?_
      · refine (holds_update (s := s)).trans ?_
        by_cases hx : x = c
        · subst hx
          simp [Holds, hgate, hpath, hne]
        · simp [hx]
      · refine (waits_update (s := s)).trans ?_
        by_cases hx : x = c
        · subst hx
          simp [Waits, hgate, hpath, hne]
        · simp [hx]
  ok := ok_update h.ok hok
  same := by
    refine same_update h fun hnew path' hp => .inl ⟨hconnected hnew, ?_⟩
    rw [hpath, ← hp, hgate]

/-- The gate of a connection that has it is let go. -/
theorem Kept.release (h : Kept file s) (hpath : (s.conns c).gate = some path)
    (hheld : (s.conns c).gateHeld = true) (hgate : conn.gate = some path)
    (hnot : conn.gateHeld = false) (hphase : ∀ t, conn.phase ≠ .waiting t) (hok : conn.Ok)
    (hconnected : conn.connected = true → (s.conns c).connected = true) :
    Kept file ((s.setGate path (s.gates path).release).setConn c conn) := by
  have hledger := h.ledger path
  refine h.setGate hpath hgate hok hconnected ?_
  have hfreed : (s.gates path).release.Ledger (fun _ => False) (Waits s path) :=
    hledger.release ⟨hpath, hheld⟩ fun _ => id
  refine hfreed.congr (fun x => ?_) fun x t => ?_
  · rw [iff_false, hnot]
    rintro (⟨-, hx⟩ | ⟨hne, hx⟩)
    · cases hx
    · exact hne (hledger.sole hx ⟨hpath, hheld⟩)
  · have hc : ∀ t, ¬ Waits s path c t := by
      intro t hw
      have hfree := (h.ok c).queued t hw.2
      rw [hheld] at hfree
      cases hfree
    by_cases hx : x = c
    · subst hx
      simp [hphase, hc]
    · simp [hx]

/-- The gate is free and the connection takes it. -/
theorem Kept.take (h : Kept file s) (hpath : (s.conns c).gate = some path)
    (hconnected : (s.conns c).connected = true) (hphase : ∀ t, (s.conns c).phase ≠ .waiting t)
    (hfree : (s.gates path).serving = (s.gates path).next) :
    Kept file ((s.setGate path (s.gates path).draw.serve).setConn c
      { s.conns c with gateHeld := true, phase := .running }) := by
  have hledger := h.ledger path
  have hc : ∀ t, ¬ Waits s path c t := fun t hw => hphase t hw.2
  refine h.setGate hpath hpath
    ⟨nofun, nofun, fun _ => hconnected, fun _ => hconnected, fun _ => ⟨path, hpath⟩, nofun⟩ id ?_
  have htaken : (s.gates path).draw.serve.Ledger (fun x => x = c) (Waits s path) :=
    hledger.draw_serve hfree fun _ => Iff.rfl
  refine htaken.congr (fun x => ?_) fun x t => ?_
  · have hnobody : ¬ Holds s path x := hledger.nobody_of_free hfree
    simp [hnobody]
  · by_cases hx : x = c
    · subst hx
      simp [hc]
    · simp [hx]

/-- The gate is not free and the connection waits. -/
theorem Kept.wait (h : Kept file s) (hpath : (s.conns c).gate = some path)
    (hconnected : (s.conns c).connected = true) (hnot : (s.conns c).gateHeld = false)
    (hphase : ∀ t, (s.conns c).phase ≠ .waiting t)
    (hbusy : (s.gates path).serving ≠ (s.gates path).next) :
    Kept file ((s.setGate path (s.gates path).draw).setConn c
      { s.conns c with phase := .waiting (s.gates path).next }) := by
  have hc : ∀ t, ¬ Waits s path c t := fun t hw => hphase t hw.2
  refine h.setGate hpath hpath
    ⟨fun _ _ => hnot, fun _ => hnot, fun _ => hconnected, fun _ => hconnected,
      fun _ => ⟨path, hpath⟩, nofun⟩ id ?_
  have hqueued : (s.gates path).draw.Ledger (Holds s path)
      fun x n => Waits s path x n ∨ (x = c ∧ n = (s.gates path).next) :=
    (h.ledger path).draw_wait hbusy fun _ _ => Iff.rfl
  refine hqueued.congr (fun x => ?_) fun x t => ?_
  · by_cases hx : x = c
    · subst hx
      simp [Holds, hnot]
    · simp [hx]
  · by_cases hx : x = c
    · subst hx
      simp [hc, eq_comm]
    · simp [hx]

/-- `acquire`: the connection has the gate, or waits for it. -/
theorem Kept.queue (h : Kept file s) (hpath : (s.conns c).gate = some path)
    (hconnected : (s.conns c).connected = true) (hnot : (s.conns c).gateHeld = false)
    (hphase : ∀ t, (s.conns c).phase ≠ .waiting t) : Kept file (s.queue c path) := by
  by_cases hfree : (s.gates path).serving = (s.gates path).next
  · have heq : s.queue c path = (s.setGate path (s.gates path).draw.serve).setConn c
        { s.conns c with gateHeld := true, phase := .running } := by
      rw [State.queue, acquire, if_pos hfree]
      rfl
    rw [heq]
    exact h.take hpath hconnected hphase hfree
  · have heq : s.queue c path = (s.setGate path (s.gates path).draw).setConn c
        { s.conns c with phase := .waiting (s.gates path).next } := by
      rw [State.queue, acquire, if_neg hfree]
      rfl
    rw [heq]
    exact h.wait hpath hconnected hnot hphase hfree

/-- The ticket of the connection is served. -/
theorem Kept.served {ticket : Nat} (h : Kept file s) (hpath : (s.conns c).gate = some path)
    (hphase : (s.conns c).phase = .waiting ticket) (hturn : (s.gates path).serving = ticket) :
    Kept file ((s.setGate path (s.gates path).serve).setConn c
      { s.conns c with gateHeld := true, phase := .running }) := by
  subst hturn
  have hconnected := (h.ok c).busy (by rw [hphase]; nofun)
  refine h.setGate hpath hpath
    ⟨nofun, nofun, fun _ => hconnected, fun _ => hconnected, fun _ => ⟨path, hpath⟩, nofun⟩ id ?_
  have hone : ∀ n, Waits s path c n → n = (s.gates path).serving :=
    fun n hn => (Phase.waiting.inj (hphase.symm.trans hn.2)).symm
  have hserved : (s.gates path).serve.Ledger (fun x => x = c)
      fun x n => Waits s path x n ∧ x ≠ c :=
    (h.ledger path).serve ⟨hpath, hphase⟩ (fun _ => Iff.rfl) (fun _ _ => Iff.rfl) hone
  refine hserved.congr (fun x => ?_) fun x t => ?_
  · have hnobody : ¬ Holds s path x := fun hx => ((h.ledger path).holder hx).2 c ⟨hpath, hphase⟩
    simp [hnobody]
  · by_cases hx : x = c
    · subst hx
      simp
    · simp [hx]

/-- The connection gives up. -/
theorem Kept.timeOut {ticket : Nat} (h : Kept file s) (hpath : (s.conns c).gate = some path)
    (hphase : (s.conns c).phase = .waiting ticket) (hturn : (s.gates path).serving ≠ ticket) :
    Kept file ((s.setGate path ((s.gates path).giveUp ticket)).setConn c
      { s.conns c with phase := .idle }) := by
  have hconnected := (h.ok c).busy (by rw [hphase]; nofun)
  have hnot := (h.ok c).queued ticket hphase
  refine h.setGate hpath hpath
    ⟨nofun, nofun, fun hne => absurd rfl hne, fun _ => hconnected, fun _ => ⟨path, hpath⟩,
      fun _ _ => hnot⟩ id ?_
  have hone : ∀ n, Waits s path c n → n = ticket :=
    fun n hn => (Phase.waiting.inj (hphase.symm.trans hn.2)).symm
  have hleft : ((s.gates path).giveUp ticket).Ledger (Holds s path)
      fun x n => Waits s path x n ∧ x ≠ c :=
    (h.ledger path).giveUp ⟨hpath, hphase⟩ hturn (fun _ _ => Iff.rfl) hone
  refine hleft.congr (fun x => ?_) fun x t => ?_
  · by_cases hx : x = c
    · subst hx
      simp [Holds, hnot]
    · simp [hx]
  · by_cases hx : x = c
    · subst hx
      simp
    · simp [hx]

theorem letGo_setConn (hgate : conn.gate = some path) (hheld : conn.gateHeld = true) :
    (s.setConn c conn).letGo c =
      (s.setGate path (s.gates path).release).setConn c { conn with gateHeld := false } := by
  simp [State.letGo, State.setConn, State.setGate, hgate, hheld]

theorem letGo_free (hnot : (s.conns c).gateHeld = false) : s.letGo c = s := by
  rw [State.letGo, hnot]
  split
  · rename_i heq
    cases heq
  · rfl

/-- A connection that is not open has no gate. -/
theorem Kept.opens (h : Kept file s) {gate : Option String} (hidle : (s.conns c).phase = .idle)
    (hclosed : (s.conns c).connected = false)
    (hcareful : ∀ path, gate = some path → ∀ {x path'}, (s.conns x).connected = true →
      (s.conns x).gate = some path' → file path' = file path → path' = path) :
    Kept file (s.setConn c { s.conns c with connected := true, gate := gate }) := by
  have hnot : (s.conns c).gateHeld = false := by
    cases hheld : (s.conns c).gateHeld with
    | false => rfl
    | true => exact absurd ((h.ok c).held hheld) (by rw [hclosed]; nofun)
  refine ⟨fun path => ?_, ok_update h.ok ?_, ?_⟩
  · refine (h.ledger path).congr (fun x => ?_) fun x t => ?_
    · refine (holds_update (s := s)).trans ?_
      by_cases hx : x = c
      · subst hx
        simp [Holds, hnot]
      · simp [hx]
    · refine (waits_update (s := s)).trans ?_
      by_cases hx : x = c
      · subst hx
        simp [Waits, hidle]
      · simp [hx]
  · have hheld : (s.conns c).gateHeld ≠ true := by
      rw [hnot]
      nofun
    exact ⟨fun _ _ => hnot, fun _ => hnot, fun _ => rfl, fun _ => rfl,
      fun hyes => absurd hyes hheld, fun _ _ => hnot⟩
  · exact same_update h fun _ path hpath => .inr (hcareful path hpath)

theorem Kept.close (h : Kept file s) (hidle : (s.conns c).phase = .idle) :
    Kept file ((s.letGo c).setConn c
      { (s.letGo c).conns c with connected := false, autocommit := true }) := by
  cases hheld : (s.conns c).gateHeld with
  | true =>
    obtain ⟨path, hpath⟩ := (h.ok c).gated hheld
    have hfreed := letGo_setConn (s := s) (c := c) hpath hheld
    rw [show s.setConn c (s.conns c) = s by simp [State.setConn]] at hfreed
    have hrelease : Kept file ((s.setGate path (s.gates path).release).setConn c { s.conns c with
        gateHeld := false, connected := false, autocommit := true }) :=
      h.release hpath hheld hpath rfl (by rw [hidle]; nofun)
        ⟨fun _ _ => rfl, fun _ => rfl, fun hne => absurd hidle hne, nofun, nofun, fun _ _ => rfl⟩
        nofun
    rw [hfreed]
    simpa [State.setConn, State.setGate] using hrelease
  | false =>
    rw [letGo_free hheld]
    exact h.setConn rfl rfl (fun _ => Iff.rfl)
      ⟨fun _ _ => hheld, fun _ => hheld, fun hne => absurd hidle hne,
        fun hyes => absurd (hheld.symm.trans hyes) nofun,
        fun hyes => absurd (hheld.symm.trans hyes) nofun, fun _ _ => hheld⟩ nofun

/-- A connection that did not wait starts its statement, or goes to its own thread for it. -/
theorem Kept.begins (h : Kept file s) (hidle : (s.conns c).phase = .idle)
    (hconnected : (s.conns c).connected = true) {phase : Phase}
    (hphase : phase = .running ∨ phase = .retrying ∧ (s.conns c).gateHeld = false) :
    Kept file (s.setConn c { s.conns c with phase := phase }) := by
  refine h.setConn rfl rfl ?_ ?_ id
  · intro t
    rw [hidle]
    rcases hphase with rfl | ⟨rfl, -⟩ <;> simp
  · rcases hphase with rfl | ⟨rfl, hnot⟩
    · exact ⟨nofun, nofun, fun _ => hconnected, fun _ => hconnected, (h.ok c).gated, nofun⟩
    · exact ⟨nofun, fun _ => hnot, fun _ => hconnected, fun _ => hconnected, (h.ok c).gated, nofun⟩

/-- The statement has ended. -/
theorem Kept.ends (h : Kept file s) (hrunning : (s.conns c).phase = .running) (autocommit : Bool) :
    Kept file (if autocommit then
      (s.setConn c { s.conns c with autocommit := autocommit, phase := .idle }).letGo c
    else s.setConn c { s.conns c with autocommit := autocommit, phase := .idle }) := by
  have hconnected := (h.ok c).busy (by rw [hrunning]; nofun)
  have hkeep : (autocommit = true → (s.conns c).gateHeld = false) →
      Kept file (s.setConn c { s.conns c with autocommit := autocommit, phase := .idle }) := by
    intro hnot
    refine h.setConn rfl rfl (by rw [hrunning]; simp) ?_ id
    exact ⟨nofun, nofun, fun hne => absurd rfl hne, fun _ => hconnected, (h.ok c).gated,
      fun _ => hnot⟩
  cases autocommit with
  | false =>
    rw [if_neg Bool.false_ne_true]
    exact hkeep nofun
  | true =>
    rw [if_pos rfl]
    cases hheld : (s.conns c).gateHeld with
    | false =>
      rw [letGo_free (by simpa [State.setConn] using hheld)]
      exact hkeep fun _ => hheld
    | true =>
      obtain ⟨path, hpath⟩ := (h.ok c).gated hheld
      have hfreed : (s.setConn c { s.conns c with autocommit := true, phase := .idle }).letGo c =
          _ := letGo_setConn hpath hheld
      rw [hfreed]
      exact h.release hpath hheld hpath rfl nofun
        ⟨nofun, nofun, fun hne => absurd rfl hne, fun _ => hconnected, nofun, fun _ _ => rfl⟩ id

/-- A step after which the connections of a file still have one path. -/
theorem Kept.step {a : Action C} (h : Kept file s) (hs : Step s a s') (hok : SamePath file s a) :
    Kept file s' := by
  rw [Step] at hs
  cases a with
  | opens c path =>
    rw [WriteGate.step] at hs
    split at hs
    · rename_i hclosed
      cases hs
      refine h.opens hclosed.1 hclosed.2 ?_
      intro path' hpath'
      split at hpath'
      · cases hpath'
      · cases hpath'
        exact fun {x p} => hok x p
    · cases hs
  | close c =>
    rw [WriteGate.step] at hs
    split at hs
    · rename_i hopen
      cases hs
      exact h.close hopen.1
    · cases hs
  | gateBefore c readonly sql inFiber =>
    rw [WriteGate.step] at hs
    split at hs
    · rename_i hopen
      split at hs
      · cases hs
        exact h.begins hopen.1 hopen.2 (.inl rfl)
      · rename_i path hpath
        split at hs
        · cases hs
          exact h.begins hopen.1 hopen.2 (.inl rfl)
        · rename_i hneeds
          have hnot : (s.conns c).gateHeld = false := by
            rw [not_or, Bool.not_eq_true] at hneeds
            exact hneeds.1
          have hphase : ∀ t, (s.conns c).phase ≠ .waiting t := by
            rw [hopen.1]
            nofun
          split at hs
          · by_cases hfree : (s.gates path).serving = (s.gates path).next
            · rw [tryAcquire, if_neg (not_not.mpr hfree)] at hs
              cases hs
              exact h.take hpath hopen.2 hphase hfree
            · rw [tryAcquire, if_pos hfree] at hs
              cases hs
              exact h.begins hopen.1 hopen.2 (.inr ⟨rfl, hnot⟩)
          · cases hs
            exact h.queue hpath hopen.2 hnot hphase
    · cases hs
  | retry c =>
    rw [WriteGate.step] at hs
    split at hs
    · rename_i path hphase hpath
      cases hs
      refine h.queue hpath ((h.ok c).busy (by rw [hphase]; nofun)) ((h.ok c).retrying hphase) ?_
      rw [hphase]
      nofun
    · cases hs
  | served c =>
    rw [WriteGate.step] at hs
    split at hs
    · rename_i ticket path hphase hpath
      split at hs
      · rename_i hturn
        cases hs
        exact h.served hpath hphase hturn
      · cases hs
    · cases hs
  | timeOut c =>
    rw [WriteGate.step] at hs
    split at hs
    · rename_i ticket path hphase hpath
      split at hs
      · rename_i hturn
        cases hs
        exact h.timeOut hpath hphase hturn
      · cases hs
    · cases hs
  | ends c autocommit =>
    rw [WriteGate.step] at hs
    split at hs
    · rename_i hrunning
      cases hs
      exact h.ends hrunning autocommit
    · cases hs

/-- Where the connections of a file have one path, its writers take turns in every run. -/
theorem fair_of_run (h : RunWhere Step (SamePath file) State.start s) : Fair file s :=
  (h.keeps (fun _ _ _ hs hok hi => hi.step hs hok) start_kept).fair

end Kept

theorem samePath_of_injective {F : Type} {file : String → F} (hfile : Function.Injective file)
    (s : State C) (a : Action C) : SamePath file s a := by
  cases a with
  | opens c path => exact fun _ _ _ _ heq => hfile heq
  | _ => exact trivial

/-- Two writers of a file, of which the second waits for its turn. -/
theorem fair_of_run_two : ∃ s : State Bool, (s.conns true).gateHeld = true ∧
    (s.gates "app.db").served = [1, 0] ∧ Fair id s := by
  have hrun : [.opens false "app.db", .opens true "app.db", .gateBefore false true "BEGIN" false,
      .ends false false, .gateBefore true false "INSERT" false, .gateBefore false true "COMMIT" false,
      .ends false true, .served true].foldlM step (State.start : State Bool) = some _ := rfl
  have hpaths := RunWhere.mono (fun s a _ => samePath_of_injective Function.injective_id s a)
    (run_of_foldlM hrun)
  exact ⟨_, rfl, rfl, fair_of_run hpaths⟩

/-- Two paths of one file have two gates. -/
theorem not_fair : ∃ s : State Bool, Run Step State.start s ∧
    (s.conns false).gate = some "app.db" ∧ (s.conns true).gate = some "./app.db" ∧
    (s.conns false).gateHeld = true ∧ (s.conns true).gateHeld = true ∧
    ∀ {F : Type} (file : String → F), file "app.db" = file "./app.db" → ¬ Fair file s := by
  have hrun : [.opens false "app.db", .opens true "./app.db", .gateBefore false true "BEGIN" false,
      .ends false false, .gateBefore true false "INSERT" false].foldlM step
      (State.start : State Bool) = some _ := rfl
  refine ⟨_, run_of_foldlM hrun, rfl, rfl, rfl, rfl, ?_⟩
  intro F file hfile h
  exact Bool.false_ne_true (h.sole rfl rfl hfile rfl rfl)

end WriteGate

end Look
