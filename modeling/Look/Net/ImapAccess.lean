/-
Which files an IMAP session touches.

`Controlled` says of a log that every file in it was touched while the client was logged in, lies
inside the root that the last successful LOGIN returned, and was neither renamed nor removed as a
message of a mailbox opened with EXAMINE.  Two places of `run_session` do not see to it.  LOGIN
replaces the root and leaves `selected` and `messages`, so that a second LOGIN goes on with the
mailbox of the first; and nothing keeps the answer READ-ONLY, so that STORE and EXPUNGE work as
after SELECT.  `controlled_of_run` is about the runs whose steps stay away from both, whatever
other processes do with the files in between.
-/
import Look.Lib.Reach
import Look.Net.ImapMailbox

namespace Look

namespace Maildir

open Http (Bytes)

/-! ## The rules -/

/-- What the last SELECT or EXAMINE opened, and the root of that time. -/
structure Opened where
  root : Option Bytes
  box : Bytes
  readOnly : Bool
deriving DecidableEq

/-- Where a log leaves the client. -/
structure Standing where
  login : Option Bytes
  opened : Option Opened

def Standing.after (st : Standing) : Event → Standing
  | .login root => { st with login := some root }
  | .select box readOnly => { st with opened := some ⟨st.login, box, readOnly⟩ }
  | _ => st

def standing (log : List Event) : Standing := log.foldl Standing.after ⟨none, none⟩

section Rules

variable (canonical : Bytes → Option Bytes)

def Standing.Inside (st : Standing) (f : File) : Prop :=
  ∃ root, st.login = some root ∧ InsideRoot canonical root f.box

/-- The file is no message of a mailbox opened with EXAMINE. -/
def Standing.Writable (st : Standing) (f : File) : Prop :=
  ∀ o, st.opened = some o → o.readOnly = true → f.box = o.box → f.sub = .tmp

def Standing.Allows (st : Standing) : Event → Prop
  | .read f => st.Inside canonical f
  | .create f => st.Inside canonical f
  | .rename f g => st.Inside canonical f ∧ st.Inside canonical g ∧ st.Writable f
  | .remove f => st.Inside canonical f ∧ st.Writable f
  | _ => True

def Controlled (log : List Event) : Prop :=
  ∀ before e after, log = before ++ e :: after → (standing before).Allows canonical e

end Rules

/-! ## The steps that stay away -/

namespace Session

/-- The last LOGIN returned the root under which the mailbox was opened. -/
def sameRoot (s : Session) : Bool :=
  ((standing s.log).opened.map fun o => decide (o.root = (standing s.log).login)).getD true

def readOnly (s : Session) : Bool := ((standing s.log).opened.map Opened.readOnly).getD false

/-- The step of a loop stays away from the mailbox of an earlier LOGIN, and in a mailbox opened
with EXAMINE it comes to no message whose flags it would change or which it would remove. -/
def careful (s : Session) : Input → Bool
  | .work =>
    match s.task with
    | .fetch _ _ _ _ => s.sameRoot
    | .store _ args i hi _ =>
      s.sameRoot && (!s.readOnly || (s.next i hi).all fun f =>
        destination f (args.apply (maildirFlags f)) = f)
    | .expunge _ (i + 1) _ =>
      s.sameRoot && (!s.readOnly || s.messages[i]?.all fun f => !(maildirFlags f).contains 0x54)
    | .search _ _ _ _ => s.sameRoot
    | _ => true
  | _ => true

end Session

/-- What a step finds beside the session; other processes may have changed the files. -/
structure Around where
  env : Env
  disk : Disk
  input : Input

def Step (canonical : Bytes → Option Bytes) (s : Session) (a : Around) (s' : Session) : Prop :=
  (s.step canonical a.env a.disk a.input).map Prod.fst = some s'

def Careful (s : Session) (a : Around) : Prop := s.careful a.input = true

/-! ## Logs that grow -/

section Logs

variable {canonical : Bytes → Option Bytes} {log : List Event} {e : Event}

@[simp]
theorem standing_concat (log : List Event) (e : Event) :
    standing (log ++ [e]) = (standing log).after e :=
  List.foldl_concat ..

theorem controlled_nil : Controlled canonical [] := by
  intro before e after h
  cases before <;> cases h

theorem Controlled.concat (h : Controlled canonical log) (he : (standing log).Allows canonical e) :
    Controlled canonical (log ++ [e]) := by
  intro before e' after heq
  rcases List.eq_nil_or_concat after with rfl | ⟨after, last, rfl⟩
  · obtain ⟨rfl, hlast⟩ := List.append_inj' heq rfl
    cases hlast
    exact he
  · have hcat : log ++ [e] = (before ++ e' :: after) ++ [last] := by
      rw [heq, List.concat_eq_append, List.append_assoc, List.cons_append]
    exact h before e' after (List.append_inj' hcat rfl).1

end Logs

/-! ## The invariant -/

section Invariant

variable (canonical : Bytes → Option Bytes)

/-- The mailbox in `selected` is the one that was opened. -/
def Session.Chosen (s : Session) : Prop :=
  s.selected ≠ [] → ∃ o, (standing s.log).opened = some o ∧ o.box = s.selected

/-- Files of a mailbox that are no longer being written. -/
def MessagesOf (box : Bytes) (files : List File) : Prop := ∀ f ∈ files, f.box = box ∧ f.sub ≠ .tmp

/-- The client has logged in, and this is a mailbox under its root. -/
def Session.Resolved (s : Session) (box : Bytes) : Prop :=
  s.authenticated = true ∧ InsideRoot canonical s.root box

/-- What holds at each place of `run_session`. -/
def Session.Working (s : Session) : Task → Prop
  | .scanCur (.select _ _) => s.Resolved canonical s.selected
  | .scanNew (.select _ _) found => s.Resolved canonical s.selected ∧ MessagesOf s.selected found
  | .scanCur (.tick _) => s.Chosen ∧ s.selected ≠ []
  | .scanNew (.tick _) found => s.Chosen ∧ s.selected ≠ [] ∧ MessagesOf s.selected found
  | .idle _ => s.Chosen ∧ s.selected ≠ []
  | .literal _ box _ _ => s.Chosen ∧ s.Resolved canonical box
  | .write _ box _ _ => s.Chosen ∧ s.Resolved canonical box
  | .file _ tmp dest =>
    s.Chosen ∧ s.Resolved canonical tmp.box ∧ tmp.sub = .tmp ∧ dest.box = tmp.box
  | .closed => True
  | _ => s.Chosen

structure Placed (s : Session) : Prop where
  login : s.authenticated = true → (standing s.log).login = some s.root
  opened : ∀ o, (standing s.log).opened = some o →
    ∃ root, o.root = some root ∧ InsideRoot canonical root o.box
  boxes : ∀ f ∈ s.messages, f.sub ≠ .tmp ∧
    ∃ o, (standing s.log).opened = some o ∧ f.box = o.box
  working : s.Working canonical s.task

end Invariant

section Steps

variable {canonical : Bytes → Option Bytes} {env : Env} {d d' : Disk} {s s' : Session} {f g : File}
  {e : Event} {t : Task} {i hi : Nat} {tag out : Bytes}

@[simp]
theorem standing_note (s : Session) (e : Event) :
    standing (s.note e).log = (standing s.log).after e :=
  standing_concat ..

@[simp]
theorem standing_send (s : Session) (text : Bytes) :
    standing (s.send text).log = standing s.log :=
  standing_concat ..

/-- The client is where it was. -/
structure SameClient (s s' : Session) : Prop where
  authenticated : s'.authenticated = s.authenticated
  root : s'.root = s.root
  selected : s'.selected = s.selected
  standing : standing s'.log = standing s.log

theorem SameClient.chosen (h : SameClient s s') (hs : s.Chosen) : s'.Chosen := by
  intro hselected
  rw [h.selected] at hselected ⊢
  rw [h.standing]
  exact hs hselected

theorem SameClient.resolved {box : Bytes} (h : SameClient s s') (hs : s.Resolved canonical box) :
    s'.Resolved canonical box := by
  rw [Session.Resolved, h.authenticated, h.root]
  exact hs

theorem SameClient.working (h : SameClient s s') (hs : s.Working canonical t) :
    s'.Working canonical t := by
  cases t with
  | scanCur p =>
    cases p with
    | select _ _ =>
      rw [Session.Working, h.selected]
      exact h.resolved hs
    | tick _ => exact ⟨h.chosen hs.1, h.selected ▸ hs.2⟩
  | scanNew p found =>
    cases p with
    | select _ _ => exact ⟨h.selected ▸ h.resolved hs.1, h.selected ▸ hs.2⟩
    | tick _ => exact ⟨h.chosen hs.1, h.selected ▸ hs.2.1, h.selected ▸ hs.2.2⟩
  | idle _ => exact ⟨h.chosen hs.1, h.selected ▸ hs.2⟩
  | literal _ _ _ _ => exact ⟨h.chosen hs.1, h.resolved hs.2⟩
  | write _ _ _ _ => exact ⟨h.chosen hs.1, h.resolved hs.2⟩
  | file _ _ _ => exact ⟨h.chosen hs.1, h.resolved hs.2.1, hs.2.2⟩
  | closed => trivial
  | command => exact h.chosen hs
  | fetch _ _ _ _ => exact h.chosen hs
  | store _ _ _ _ _ => exact h.chosen hs
  | expunge _ _ _ => exact h.chosen hs
  | search _ _ _ _ => exact h.chosen hs

theorem working_of_loop (hs : s.Chosen) (hloop : t.isLoop = true) : s.Working canonical t := by
  cases t <;> first | exact hs | cases hloop

/-- The same client at another place, with messages of the same mailbox. -/
theorem Placed.move (h : Placed canonical s) (hsame : SameClient s s')
    (hmessages : ∀ g ∈ s'.messages, g.sub ≠ .tmp ∧
      ∃ o, (standing s.log).opened = some o ∧ g.box = o.box)
    (hworking : s.Working canonical s'.task) : Placed canonical s' := by
  refine ⟨?_, ?_, ?_, hsame.working hworking⟩
  · rw [hsame.authenticated, hsame.standing, hsame.root]
    exact h.login
  · rw [hsame.standing]
    exact h.opened
  · rw [hsame.standing]
    exact hmessages

theorem Placed.move_same (h : Placed canonical s) (hsame : SameClient s s')
    (hmessages : s'.messages = s.messages) (hworking : s.Working canonical s'.task) :
    Placed canonical s' := by
  refine h.move hsame ?_ hworking
  rw [hmessages]
  exact h.boxes

theorem Controlled.note (h : Controlled canonical s.log)
    (he : (standing s.log).Allows canonical e) : Controlled canonical (s.note e).log :=
  h.concat he

theorem Controlled.send (h : Controlled canonical s.log) (text : Bytes) :
    Controlled canonical (s.send text).log :=
  h.concat trivial

/-! ### What a line begins -/

theorem Placed.chosen_of_command (h : Placed canonical s) (htask : s.task = .command) :
    s.Chosen := by
  have hworking := h.working
  rw [htask] at hworking
  exact hworking

variable (env) in
theorem Placed.begins (h : Placed canonical s) (hchosen : s.Chosen)
    (hb : Begins canonical env s s') : Placed canonical s' := by
  cases hb with
  | reply text errors task htask =>
    refine h.move_same ⟨rfl, rfl, rfl, standing_send ..⟩ rfl ?_
    rcases htask with rfl | rfl
    · exact hchosen
    · trivial
  | startTls text =>
    refine ⟨nofun, ?_, nofun, nofun⟩
    rw [standing_send]
    exact h.opened
  | login root text =>
    have hst : standing ((s.note (.login root)).send text).log =
        { standing s.log with login := some root } := by
      rw [standing_send, standing_note]
      rfl
    refine ⟨fun _ => ?_, ?_, ?_, ?_⟩
    · rw [hst]
    · rw [hst]
      exact h.opened
    · rw [hst]
      exact h.boxes
    · intro hselected
      rw [hst]
      exact hchosen hselected
  | select name tag cmd hauth hbox =>
    exact ⟨h.login, h.opened, h.boxes, hauth, insideRoot_resolveMailbox hbox⟩
  | idle text tag hselected =>
    exact h.move_same ⟨rfl, rfl, rfl, standing_send ..⟩ rfl ⟨hchosen, hselected⟩
  | loop task hloop =>
    exact h.move_same ⟨rfl, rfl, rfl, rfl⟩ rfl (working_of_loop hchosen hloop)
  | literal name tag flags size log hauth hbox hlog =>
    have hst : standing log = standing s.log := by
      rcases hlog with rfl | ⟨text, rfl⟩
      · rfl
      · exact standing_concat ..
    exact h.move_same ⟨rfl, rfl, rfl, hst⟩ rfl ⟨hchosen, hauth, insideRoot_resolveMailbox hbox⟩

variable (env) in
theorem Controlled.begins (h : Controlled canonical s.log) (hb : Begins canonical env s s') :
    Controlled canonical s'.log := by
  cases hb with
  | reply text errors task htask => exact h.send text
  | startTls text => exact h.send text
  | login root text => exact (h.note (e := .login root) trivial).send text
  | select name tag cmd hauth hbox => exact h
  | idle text tag hselected => exact h.send text
  | loop task hloop => exact h
  | literal name tag flags size log hauth hbox hlog =>
    rcases hlog with rfl | ⟨text, rfl⟩
    · exact h
    · exact h.send text

/-! ### `build_messages` -/

theorem messagesOf_list {box : Bytes} {sub : Sub} (hsub : sub ≠ .tmp) :
    MessagesOf box (d.list box sub) := by
  intro f hf
  rw [Disk.list, List.mem_filter, decide_eq_true_eq] at hf
  exact ⟨hf.2.1, hf.2.2 ▸ hsub⟩

theorem mem_sorted {files : List File} : f ∈ sorted files ↔ f ∈ files :=
  (List.perm_insertionSort _ files).mem_iff

theorem messagesOf_sorted {box : Bytes} {found : List File} (h : MessagesOf box found) :
    MessagesOf box (sorted (found ++ d.list box .new)) := by
  intro f hf
  rcases List.mem_append.mp (mem_sorted.mp hf) with hf | hf
  · exact h f hf
  · exact messagesOf_list (by decide) f hf

theorem Placed.scanCur {p : Purpose} (h : Placed canonical s) (htask : s.task = .scanCur p) :
    Placed canonical { s with task := .scanNew p (d.list s.selected .cur) } := by
  have hworking := h.working
  have hlist : MessagesOf s.selected (d.list s.selected .cur) := messagesOf_list (by decide)
  rw [htask] at hworking
  refine h.move_same ⟨rfl, rfl, rfl, rfl⟩ rfl ?_
  cases p with
  | select _ _ => exact ⟨hworking, hlist⟩
  | tick _ => exact ⟨hworking.1, hworking.2, hlist⟩

theorem Placed.scanned {p : Purpose} {found : List File} (h : Placed canonical s)
    (htask : s.task = .scanNew p found) :
    Placed canonical (s.scanned (sorted (found ++ d.list s.selected .new)) p) := by
  have hworking := h.working
  rw [htask] at hworking
  cases p with
  | select tag cmd =>
    obtain ⟨⟨hauth, hinside⟩, hfound⟩ := hworking
    have hst : standing (s.scanned (sorted (found ++ d.list s.selected .new)) (.select tag cmd)).log =
        { standing s.log with
          opened := some ⟨(standing s.log).login, s.selected, decide (cmd = ascii "EXAMINE")⟩ } := by
      rw [Session.scanned, Session.done, standing_send, standing_note]
      rfl
    refine ⟨fun _ => ?_, ?_, ?_, ?_⟩
    · rw [hst]
      exact h.login hauth
    · intro o ho
      rw [hst] at ho
      cases ho
      exact ⟨s.root, h.login hauth, hinside⟩
    · intro f hf
      rw [hst]
      obtain ⟨hbox, hsub⟩ := messagesOf_sorted hfound f hf
      exact ⟨hsub, _, rfl, hbox⟩
    · intro _
      rw [hst]
      exact ⟨_, rfl, rfl⟩
  | tick tag =>
    obtain ⟨hchosen, hselected, hfound⟩ := hworking
    have hmessages : ∀ f ∈ s.messages ++ (sorted (found ++ d.list s.selected .new)).filter
        (· ∉ s.messages), f.sub ≠ .tmp ∧ ∃ o, (standing s.log).opened = some o ∧ f.box = o.box := by
      intro f hf
      rcases List.mem_append.mp hf with hf | hf
      · exact h.boxes f hf
      · obtain ⟨hbox, hsub⟩ := messagesOf_sorted hfound f (List.mem_of_mem_filter hf)
        obtain ⟨o, ho, hob⟩ := hchosen hselected
        exact ⟨hsub, o, ho, hbox.trans hob.symm⟩
    rw [Session.scanned]
    dsimp only
    split
    · exact h.move ⟨rfl, rfl, rfl, rfl⟩ hmessages ⟨hchosen, hselected⟩
    · exact h.move ⟨rfl, rfl, rfl, standing_send ..⟩ hmessages ⟨hchosen, hselected⟩

theorem Controlled.scanned {p : Purpose} {fresh : List File} (h : Controlled canonical s.log) :
    Controlled canonical (s.scanned fresh p).log := by
  cases p with
  | select tag cmd =>
    exact (h.note (e := .select s.selected (cmd = ascii "EXAMINE")) trivial).send _
  | tick tag =>
    rw [Session.scanned]
    dsimp only
    split
    · exact h
    · exact h.send _

/-! ### The loops -/

theorem Session.mem_of_next (h : s.next i hi = some f) : f ∈ s.messages := by
  rw [Session.next] at h
  split at h
  · exact List.mem_of_getElem? h
  · cases h

theorem Placed.inside (h : Placed canonical s) (hroot : s.sameRoot = true) (hf : f ∈ s.messages) :
    (standing s.log).Inside canonical f := by
  obtain ⟨_, o, ho, hbox⟩ := h.boxes f hf
  obtain ⟨root, hr, hinside⟩ := h.opened o ho
  rw [Session.sameRoot, ho, Option.map_some, Option.getD_some, decide_eq_true_eq, hr] at hroot
  exact ⟨root, hroot.symm, hbox ▸ hinside⟩

theorem writable_of_readOnly (h : s.readOnly = false) : (standing s.log).Writable f := by
  intro o ho hro
  rw [Session.readOnly, ho, Option.map_some, Option.getD_some, hro] at h
  cases h

theorem destination_sub {flags : Bytes} (h : f.sub ≠ .tmp) : (destination f flags).sub ≠ .tmp := by
  rw [destination]
  dsimp only
  split
  · exact nofun
  · exact h

theorem applyFlags_eq {flags : Bytes} (h : applyFlags env d f flags = some (g, d')) :
    g = destination f flags := by
  rw [applyFlags] at h
  split at h
  · rename_i hdest
    cases h
    exact hdest.symm
  · obtain ⟨_, _, hg⟩ := Option.map_eq_some_iff.mp h
    cases hg
    rfl

theorem sameClient_fetchOne (items : Bytes) :
    SameClient s (s.fetchOne env d tag items i hi f) := by
  rw [Session.fetchOne]
  split
  · exact ⟨rfl, rfl, rfl, rfl⟩
  · refine ⟨rfl, rfl, rfl, ?_⟩
    rw [standing_send, standing_note, standing_note]
    rfl

theorem Placed.fetchOne (h : Placed canonical s) (hchosen : s.Chosen) (items : Bytes) :
    Placed canonical (s.fetchOne env d tag items i hi f) := by
  refine h.move_same (sameClient_fetchOne items) ?_ (working_of_loop hchosen ?_)
  all_goals
    rw [Session.fetchOne]
    split <;> rfl

theorem Controlled.fetchOne (h : Controlled canonical s.log)
    (hf : (standing s.log).Inside canonical f) (items : Bytes) :
    Controlled canonical (s.fetchOne env d tag items i hi f).log := by
  rw [Session.fetchOne]
  split
  · exact h
  · refine Controlled.send ?_ _
    exact (Controlled.note (e := .read f) h hf).note trivial

theorem Placed.storeOne (h : Placed canonical s) (hchosen : s.Chosen) (hf : f ∈ s.messages)
    (args : StoreArgs) : Placed canonical (s.storeOne env d tag args i hi out f).1 := by
  rw [Session.storeOne]
  dsimp only
  split
  · exact h.move_same ⟨rfl, rfl, rfl, rfl⟩ rfl hchosen
  · rename_i g d' hg
    cases applyFlags_eq hg
    have hmessages : ∀ g ∈ s.messages.set (i - 1) (destination f (args.apply (maildirFlags f))),
        g.sub ≠ .tmp ∧ ∃ o, (standing s.log).opened = some o ∧ g.box = o.box := by
      intro g hg
      rcases List.mem_or_eq_of_mem_set hg with hg | rfl
      · exact h.boxes g hg
      · exact ⟨destination_sub (h.boxes f hf).1, (h.boxes f hf).2⟩
    split
    · split
      · exact h.move ⟨rfl, rfl, rfl, rfl⟩ hmessages hchosen
      · exact h.move ⟨rfl, rfl, rfl, standing_note ..⟩ hmessages hchosen
    · split
      · exact h.move ⟨rfl, rfl, rfl, standing_note ..⟩ hmessages hchosen
      · exact h.move ⟨rfl, rfl, rfl, (standing_note ..).trans (standing_note ..)⟩ hmessages hchosen

theorem Controlled.storeOne (h : Controlled canonical s.log) (args : StoreArgs)
    (hf : (standing s.log).Inside canonical f)
    (hw : (standing s.log).Writable f ∨ destination f (args.apply (maildirFlags f)) = f) :
    Controlled canonical (s.storeOne env d tag args i hi out f).1.log := by
  rw [Session.storeOne]
  dsimp only
  split
  · exact h
  · rename_i g d' hg
    have hdest := applyFlags_eq hg
    have hrename : Controlled canonical
        (if g = f then ({ s with messages := s.messages.set (i - 1) g } : Session)
          else ({ s with messages := s.messages.set (i - 1) g } : Session).note
            (.rename f g)).log := by
      split
      · exact h
      · rename_i hne
        refine Controlled.note h ⟨hf, ?_, hw.resolve_right fun heq => hne (hdest.trans heq)⟩
        obtain ⟨root, hroot, hinside⟩ := hf
        exact ⟨root, hroot, hdest ▸ hinside⟩
    split
    · exact hrename
    · exact hrename.note trivial

theorem Placed.expungeOne (h : Placed canonical s) (hchosen : s.Chosen) :
    Placed canonical (s.expungeOne env d tag i out f).1 := by
  have hmessages : ∀ g ∈ s.messages.eraseIdx i,
      g.sub ≠ .tmp ∧ ∃ o, (standing s.log).opened = some o ∧ g.box = o.box :=
    fun g hg => h.boxes g (List.mem_of_mem_eraseIdx hg)
  rw [Session.expungeOne]
  split
  · dsimp only
    split
    · exact h.move ⟨rfl, rfl, rfl, (standing_note ..).trans (standing_note ..)⟩ hmessages hchosen
    · exact h.move ⟨rfl, rfl, rfl, standing_note ..⟩ hmessages hchosen
  · exact h.move_same ⟨rfl, rfl, rfl, rfl⟩ rfl hchosen

theorem Controlled.expungeOne (h : Controlled canonical s.log)
    (hf : (standing s.log).Inside canonical f)
    (hw : (standing s.log).Writable f ∨ (maildirFlags f).contains 0x54 = false) :
    Controlled canonical (s.expungeOne env d tag i out f).1.log := by
  rw [Session.expungeOne]
  split
  · rename_i hdeleted
    have hwritable := hw.resolve_right fun hnot => absurd (hnot ▸ hdeleted.1) Bool.false_ne_true
    dsimp only
    split
    · exact (Controlled.note (e := .remove f) h ⟨hf, hwritable⟩).note trivial
    · exact h.note trivial
  · exact h

theorem Placed.searchOne (h : Placed canonical s) (hchosen : s.Chosen) (crits : List Criterion) :
    Placed canonical (s.searchOne env d tag crits i out f) := by
  rw [Session.searchOne]
  dsimp only
  split
  · split
    · exact h.move_same ⟨rfl, rfl, rfl, rfl⟩ rfl hchosen
    · split
      · exact h.move_same ⟨rfl, rfl, rfl, (standing_note ..).trans (standing_note ..)⟩ rfl hchosen
      · exact h.move_same ⟨rfl, rfl, rfl, standing_note ..⟩ rfl hchosen
  · split
    · exact h.move_same ⟨rfl, rfl, rfl, standing_note ..⟩ rfl hchosen
    · exact h.move_same ⟨rfl, rfl, rfl, rfl⟩ rfl hchosen

theorem Controlled.searchOne (h : Controlled canonical s.log)
    (hf : (standing s.log).Inside canonical f) (crits : List Criterion) :
    Controlled canonical (s.searchOne env d tag crits i out f).log := by
  have hread : Controlled canonical (s.note (.read f)).log := h.note hf
  rw [Session.searchOne]
  dsimp only
  split
  · split
    · exact h
    · split
      · exact hread.note trivial
      · exact hread
  · split
    · exact h.note trivial
    · exact h

/-! ### APPEND -/

theorem Placed.inside_of_resolved {box : Bytes} (h : Placed canonical s)
    (hres : s.Resolved canonical box) (hf : f.box = box) : (standing s.log).Inside canonical f :=
  ⟨s.root, h.login hres.1, hf ▸ hres.2⟩

theorem Placed.writeTmp {box flags data : Bytes} (h : Placed canonical s) (hchosen : s.Chosen)
    (hres : s.Resolved canonical box) :
    Placed canonical (s.writeTmp env d tag box flags data).1 := by
  rw [Session.writeTmp]
  dsimp only
  split
  · exact h.move_same ⟨rfl, rfl, rfl, standing_send ..⟩ rfl hchosen
  · refine h.move_same ⟨rfl, rfl, rfl, standing_note ..⟩ rfl ⟨hchosen, hres, rfl, ?_⟩
    split <;> rfl

theorem Controlled.writeTmp {box flags data : Bytes} (h : Controlled canonical s.log)
    (hplaced : Placed canonical s) (hres : s.Resolved canonical box) :
    Controlled canonical (s.writeTmp env d tag box flags data).1.log := by
  rw [Session.writeTmp]
  dsimp only
  split
  · exact h.send _
  · exact h.note (hplaced.inside_of_resolved hres rfl)

theorem Placed.fileTmp (h : Placed canonical s) (hchosen : s.Chosen) :
    Placed canonical (s.fileTmp env d tag f g).1 := by
  rw [Session.fileTmp]
  split
  · exact h.move_same ⟨rfl, rfl, rfl, (standing_send ..).trans (standing_note ..)⟩ rfl hchosen
  · dsimp only
    split
    · exact h.move_same ⟨rfl, rfl, rfl, (standing_send ..).trans (standing_note ..)⟩ rfl hchosen
    · exact h.move_same ⟨rfl, rfl, rfl, standing_send ..⟩ rfl hchosen

theorem Controlled.fileTmp (h : Controlled canonical s.log) (hplaced : Placed canonical s)
    (hres : s.Resolved canonical f.box) (hsub : f.sub = .tmp) (hbox : g.box = f.box) :
    Controlled canonical (s.fileTmp env d tag f g).1.log := by
  have hf := hplaced.inside_of_resolved hres rfl
  have hwritable : (standing s.log).Writable f := fun _ _ _ _ => hsub
  rw [Session.fileTmp]
  split
  · exact (Controlled.note (e := .rename f g) h
      ⟨hf, hplaced.inside_of_resolved hres hbox, hwritable⟩).send _
  · dsimp only
    split
    · exact (Controlled.note (e := .remove f) h ⟨hf, hwritable⟩).send _
    · exact h.send _

/-! ### One step -/

theorem Placed.work (h : Placed canonical s) (hs : s.work env d = some (s', d')) :
    Placed canonical s' := by
  have hworking := h.working
  rw [Session.work.eq_def] at hs
  split at hs
  · rename_i p htask
    cases hs
    exact h.scanCur htask
  · rename_i p found htask
    cases hs
    exact h.scanned htask
  · rename_i tag items i hi htask
    rw [htask] at hworking
    split at hs
    · cases hs
      exact h.move_same ⟨rfl, rfl, rfl, standing_send ..⟩ rfl hworking
    · cases hs
      exact h.fetchOne hworking items
  · rename_i tag args i hi out htask
    rw [htask] at hworking
    split at hs
    · cases hs
      exact h.move_same ⟨rfl, rfl, rfl, standing_send ..⟩ rfl hworking
    · rename_i f hf
      obtain rfl : (s.storeOne env d tag args i hi out f).1 = s' :=
        congrArg Prod.fst (Option.some.inj hs)
      exact h.storeOne hworking (Session.mem_of_next hf) args
  · rename_i tag i out htask
    rw [htask] at hworking
    split at hs
    · cases hs
    · rename_i f hf
      obtain rfl : (s.expungeOne env d tag i out f).1 = s' :=
        congrArg Prod.fst (Option.some.inj hs)
      exact h.expungeOne hworking
  · rename_i tag out htask
    rw [htask] at hworking
    cases hs
    exact h.move_same ⟨rfl, rfl, rfl, standing_send ..⟩ rfl hworking
  · rename_i tag crits i out htask
    rw [htask] at hworking
    split at hs
    · cases hs
      exact h.move_same ⟨rfl, rfl, rfl, standing_send ..⟩ rfl hworking
    · cases hs
      exact h.searchOne hworking crits
  · rename_i tag box flags data htask
    rw [htask] at hworking
    obtain rfl : (s.writeTmp env d tag box flags data).1 = s' :=
      congrArg Prod.fst (Option.some.inj hs)
    exact h.writeTmp hworking.1 hworking.2
  · rename_i tag tmp dest htask
    rw [htask] at hworking
    obtain rfl : (s.fileTmp env d tag tmp dest).1 = s' := congrArg Prod.fst (Option.some.inj hs)
    exact h.fileTmp hworking.1
  · cases hs

/-- Every step keeps a session in its place, the careless ones too. -/
theorem Placed.step {a : Input} (h : Placed canonical s)
    (hs : s.step canonical env d a = some (s', d')) : Placed canonical s' := by
  cases a with
  | line l =>
    rw [Session.step] at hs
    split at hs
    · rename_i htask
      cases hs
      exact h.begins env (h.chosen_of_command htask) (begins_command l)
    · rename_i tag htask
      have hworking := h.working
      rw [htask] at hworking
      cases hs
      exact h.begins env hworking.1 (begins_idleLine tag l)
    · cases hs
  | data bytes =>
    rw [Session.step] at hs
    split at hs
    · rename_i tag box flags size htask
      have hworking := h.working
      rw [htask] at hworking
      split at hs
      · cases hs
        exact h.move_same ⟨rfl, rfl, rfl, rfl⟩ rfl hworking
      · cases hs
    · cases hs
  | tick =>
    rw [Session.step] at hs
    split at hs
    · rename_i tag htask
      have hworking := h.working
      rw [htask] at hworking
      cases hs
      exact h.move_same ⟨rfl, rfl, rfl, rfl⟩ rfl hworking
    · cases hs
  | work => exact h.work hs
  | hangup =>
    cases hs
    exact h.move_same ⟨rfl, rfl, rfl, rfl⟩ rfl trivial

theorem Controlled.work (h : Controlled canonical s.log) (hplaced : Placed canonical s)
    (hok : s.careful .work = true) (hs : s.work env d = some (s', d')) :
    Controlled canonical s'.log := by
  have hworking := hplaced.working
  rw [Session.work.eq_def] at hs
  rw [Session.careful.eq_def] at hok
  dsimp only at hok
  split at hs
  · cases hs
    exact h
  · cases hs
    exact h.scanned
  · rename_i tag items i hi htask
    rw [htask] at hok
    split at hs
    · cases hs
      exact h.send _
    · rename_i f hf
      cases hs
      exact h.fetchOne (hplaced.inside hok (Session.mem_of_next hf)) items
  · rename_i tag args i hi out htask
    rw [htask] at hok
    dsimp only at hok
    rw [Bool.and_eq_true, Bool.or_eq_true, Bool.not_eq_true'] at hok
    split at hs
    · cases hs
      exact h.send _
    · rename_i f hf
      obtain rfl : (s.storeOne env d tag args i hi out f).1 = s' :=
        congrArg Prod.fst (Option.some.inj hs)
      refine h.storeOne args (hplaced.inside hok.1 (Session.mem_of_next hf)) ?_
      refine hok.2.imp writable_of_readOnly fun hall => ?_
      rwa [hf, Option.all_some, decide_eq_true_eq] at hall
  · rename_i tag i out htask
    rw [htask] at hok
    dsimp only at hok
    rw [Bool.and_eq_true, Bool.or_eq_true, Bool.not_eq_true'] at hok
    split at hs
    · cases hs
    · rename_i f hf
      obtain rfl : (s.expungeOne env d tag i out f).1 = s' :=
        congrArg Prod.fst (Option.some.inj hs)
      refine h.expungeOne (hplaced.inside hok.1 (List.mem_of_getElem? hf)) ?_
      refine hok.2.imp writable_of_readOnly fun hall => ?_
      rwa [hf, Option.all_some, Bool.not_eq_true'] at hall
  · cases hs
    exact h.send _
  · rename_i tag crits i out htask
    rw [htask] at hok
    split at hs
    · cases hs
      exact h.send _
    · rename_i f hf
      cases hs
      exact h.searchOne (hplaced.inside hok (Session.mem_of_next hf)) crits
  · rename_i tag box flags data htask
    rw [htask] at hworking
    obtain rfl : (s.writeTmp env d tag box flags data).1 = s' :=
      congrArg Prod.fst (Option.some.inj hs)
    exact h.writeTmp hplaced hworking.2
  · rename_i tag tmp dest htask
    rw [htask] at hworking
    obtain ⟨_, hres, hsub, hbox⟩ := hworking
    obtain rfl : (s.fileTmp env d tag tmp dest).1 = s' := congrArg Prod.fst (Option.some.inj hs)
    exact h.fileTmp hplaced hres hsub hbox
  · cases hs

theorem Controlled.step {a : Input} (h : Controlled canonical s.log) (hplaced : Placed canonical s)
    (hok : s.careful a = true) (hs : s.step canonical env d a = some (s', d')) :
    Controlled canonical s'.log := by
  cases a with
  | line l =>
    rw [Session.step] at hs
    split at hs
    · cases hs
      exact h.begins env (begins_command l)
    · rename_i tag _
      cases hs
      exact h.begins env (begins_idleLine tag l)
    · cases hs
  | data bytes =>
    rw [Session.step] at hs
    split at hs
    · split at hs
      · cases hs
        exact h
      · cases hs
    · cases hs
  | tick =>
    rw [Session.step] at hs
    split at hs
    · cases hs
      exact h
    · cases hs
  | work => exact h.work hplaced hok hs
  | hangup =>
    cases hs
    exact h

end Steps

/-! ## Whole sessions -/

section Sessions

variable {canonical : Bytes → Option Bytes} {env : Env} {s : Session}

theorem placed_start (implicitTls : Bool) : Placed canonical (Session.start env implicitTls) :=
  ⟨nofun, nofun, nofun, fun h => absurd rfl h⟩

/-- In a session whose steps are careful every file is touched under the rules. -/
theorem controlled_of_run {implicitTls : Bool}
    (h : RunWhere (Step canonical) Careful (Session.start env implicitTls) s) :
    Controlled canonical s.log := by
  have hinv : Placed canonical s ∧ Controlled canonical s.log := by
    refine RunWhere.keeps (I := fun s => Placed canonical s ∧ Controlled canonical s.log) ?_ h
      ⟨placed_start implicitTls, controlled_nil.concat trivial⟩
    intro s a s' hstep hok hi
    obtain ⟨⟨s1, d⟩, hd, rfl⟩ := Option.map_eq_some_iff.mp hstep
    exact ⟨hi.1.step hd, hi.2.step hi.1 hok hd⟩
  exact hinv.2

/-! ### The two places -/

theorem Controlled.get {log : List Event} {e : Event} {n : Nat} (h : Controlled canonical log)
    (he : log[n]? = some e) : (standing (log.take n)).Allows canonical e := by
  obtain ⟨hn, rfl⟩ := List.getElem?_eq_some_iff.mp he
  refine h _ _ (log.drop (n + 1)) ?_
  rw [← List.drop_eq_getElem_cons hn, List.take_append_drop]

/-- Every user has the directory of that name. -/
def users : Env :=
  { sslCtx := false
    handshake := false
    auth := fun user _ => some (ascii "/mail/" ++ user)
    isDirectory := fun _ => true
    folders := fun _ => []
    refused := fun _ => false
    unique := ascii "1"
    maxErrors := 20
    maxLiteral := 26214400 }

def letter : File := ⟨ascii "/mail/ann", .new, ascii "7"⟩

def around (input : Input) : Around := ⟨users, [(letter, ascii "Subject: x\r\n\r\ny")], input⟩

/-- Ann chooses her mailbox and reads a message. -/
def annReads : List Around :=
  [around (.line (ascii "1 LOGIN ann x")), around (.line (ascii "2 SELECT INBOX")),
    around .work, around .work, around (.line (ascii "3 FETCH * BODY[]")), around .work]

/-- Ann's mailbox is still chosen when Bob has logged in. -/
def bobReads : List Around :=
  [around (.line (ascii "1 LOGIN ann x")), around (.line (ascii "2 SELECT INBOX")),
    around .work, around .work, around (.line (ascii "3 LOGIN bob x")),
    around (.line (ascii "4 FETCH * BODY[]")), around .work]

/-- Ann sets a flag in a mailbox opened with EXAMINE. -/
def annMarks : List Around :=
  [around (.line (ascii "1 LOGIN ann x")), around (.line (ascii "2 EXAMINE INBOX")),
    around .work, around .work, around (.line (ascii "3 STORE * +FLAGS (\\Seen)")), around .work]

theorem controlled_of_run_reads :
    ∃ s, RunWhere (Step some) Careful (Session.start users false) s ∧
      .read letter ∈ s.log ∧ Controlled some s.log := by
  have hrun : stepsWhere (fun s a => (s.step some a.env a.disk a.input).map Prod.fst)
      (fun s a => s.careful a.input) (Session.start users false) annReads = some _ := rfl
  have hwhere := runWhere_of_stepsWhere hrun
  exact ⟨_, hwhere, by decide, controlled_of_run hwhere⟩

/-- A session touches the files of a user who logged in before, and renames a message of a mailbox
opened with EXAMINE. -/
theorem not_controlled :
    (∃ s, Run (Step some) (Session.start users false) s ∧ s.readOnly = false ∧
      ¬ Controlled some s.log) ∧
    ∃ s, Run (Step some) (Session.start users false) s ∧ s.sameRoot = true ∧
      ¬ Controlled some s.log := by
  constructor
  · have hrun : bobReads.foldlM
        (fun s a => (s.step some a.env a.disk a.input).map Prod.fst)
        (Session.start users false) = some _ := rfl
    refine ⟨_, run_of_foldlM hrun, rfl, fun h => ?_⟩
    obtain ⟨root, hroot, hinside⟩ := h.get (n := 7) (e := .read letter) rfl
    cases hroot
    rcases hinside with hbox | ⟨rs, hrs, hwithin⟩
    · exact absurd hbox (by decide)
    · cases hrs
      exact absurd hwithin (by decide)
  · have hrun : annMarks.foldlM
        (fun s a => (s.step some a.env a.disk a.input).map Prod.fst)
        (Session.start users false) = some _ := rfl
    refine ⟨_, run_of_foldlM hrun, rfl, fun h => ?_⟩
    have hrename := h.get (n := 5) (e := .rename letter (destination letter (ascii "S"))) rfl
    exact absurd (hrename.2.2 _ rfl rfl rfl) (by decide)

end Sessions

end Maildir

end Look
