/-
Literals and commands of an IMAP session are kept apart, where APPEND is not refused too early.

A client sends lines, and with an APPEND its literal: behind a continuation, or at once where
the size has a plus.  The session is in order when every turn begins at a line of the client
(`AtItem`).  A turn that refuses an APPEND does not read a literal.  When the client has held it
back that is right; when it is on the wire already, its bytes are the next line
(`turn_refused`).  So the session stays in order exactly as long as no APPEND with a plus is
refused (`literals_apart_iff`).
-/
import Mathlib.Algebra.Group.Int.Defs
import Mathlib.Algebra.Group.Nat.Defs
import Look.Net.Imap

namespace Look

namespace Imap

open Http (Bytes lf cr crlf)
open Smtp (upper isSpace)

/-! ## The client -/

inductive Item where
  | line (l : Bytes)
  | append (l literal : Bytes) (sync : Bool)

def Item.wire : Item → Wire
  | .line l => [.sent (l ++ crlf)]
  | .append l literal true => [.sent (l ++ crlf), .held (literal ++ crlf)]
  | .append l literal false => [.sent (l ++ crlf ++ literal ++ crlf)]

def wireOf (items : List Item) : Wire := items.flatMap Item.wire

/-- The line is an APPEND with a literal of this size. -/
def Announces (l : Bytes) (n : Nat) (sync : Bool) : Prop :=
  ∃ tag verb args digits, tag ≠ [] ∧ 0x20 ∉ tag ∧ 0x20 ∉ verb ∧ upper verb = ascii "APPEND" ∧
    digits ≠ [] ∧ digits.all isDigit ∧ digitsValue digits = n ∧
    l = tag ++ 0x20 :: (verb ++ 0x20 ::
      (args ++ 0x7B :: (digits ++ (if sync then [] else [0x2B]) ++ [0x7D])))

/-- The bytes that `read_line` keeps. -/
def shown (l : Bytes) : Bytes := l.filter (· ≠ cr)

/-- A line of the client, and every APPEND announces its literal. -/
def Item.Valid : Item → Prop
  | .line l => lf ∉ l ∧ (parseCommand (shown l)).2.1 ≠ ascii "APPEND"
  | .append l literal sync => lf ∉ l ∧ cr ∉ l ∧ Announces l literal.length sync

/-! ## Where the server reads -/

/-- What the client sends next, when it is not asked to go on. -/
def settle : Wire → Wire
  | .held _ :: w => settle w
  | .sent [] :: w => settle w
  | w => w

/-- The server reads at the first byte of an item, or at the end. -/
def AtItem (script : List Item) (w : Wire) : Prop :=
  ∃ items, items <:+ script ∧ settle w = settle (wireOf items)

/-- The mailbox that an APPEND names. -/
def mailboxOf (l : Bytes) : Bytes :=
  match cutLast 0x7B (parseCommand l).2.2 with
  | some (head, _) => (words head).headD []
  | none => []

/-- The APPEND in the line `l` is not refused before its literal is read. -/
def Accepted (h : Host) (s : Session) (l : Bytes) (n : Nat) : Prop :=
  s.authenticated ∧ n < 2 ^ 64 ∧ n ≤ h.maxLiteral ∧ resolveMailbox h s.root (mailboxOf l) ≠ []

/-- If the next line is an APPEND with a plus that is run as a command, it is not refused. -/
def AcceptsPlus (h : Host) (script : List Item) (c : Config) : Prop :=
  ∀ l literal items, (.append l literal false :: items) <:+ script →
    settle c.wire = settle (wireOf (.append l literal false :: items)) →
    c.session.idling = none → l.length ≤ h.maxLine → Accepted h c.session l literal.length

/-! ## Reading -/

theorem readLine_settle (max : Nat) (out : Bytes) (w : Wire) :
    readLine max out (settle w) = readLine max out w := by
  fun_induction settle w with
  | case1 s w ih => exact ih
  | case2 w ih => exact ih
  | case3 => rfl

theorem scanLine_line {max : Nat} {l : Bytes} (hl : lf ∉ l) (out rest : Bytes)
    (hlen : (out ++ shown l).length ≤ max) :
    scanLine max out (l ++ crlf ++ rest) = (.line (out ++ shown l), rest) := by
  induction l generalizing out with
  | nil => simp [shown, crlf, scanLine, cr, lf]
  | cons c l ih =>
    rw [List.mem_cons, not_or] at hl
    rw [List.cons_append, List.cons_append, scanLine]
    by_cases hc : c = cr
    · have hshown : shown (c :: l) = shown l := List.filter_cons_of_neg (by simp [hc])
      rw [if_pos hc, hshown]
      rw [hshown] at hlen
      exact ih hl.2 out hlen
    · have hshown : shown (c :: l) = c :: shown l := List.filter_cons_of_pos (by simp [hc])
      rw [hshown] at hlen ⊢
      have hnot : ¬max < (out ++ [c]).length := by
        simp only [List.length_append, List.length_cons, List.length_nil] at hlen ⊢
        omega
      have happend : out ++ c :: shown l = (out ++ [c]) ++ shown l := List.append_cons ..
      rw [happend] at hlen ⊢
      rw [if_neg hc, if_neg (Ne.symm hl.1), if_neg hnot]
      exact ih hl.2 (out ++ [c]) hlen

theorem scanLine_long {max : Nat} {l : Bytes} (hl : lf ∉ l) (out rest : Bytes)
    (hout : out.length ≤ max) (hlen : max < (out ++ shown l).length) :
    ∃ rest', scanLine max out (l ++ crlf ++ rest) = (.tooLong, rest') := by
  induction l generalizing out with
  | nil =>
    simp only [shown, List.filter_nil, List.append_nil] at hlen
    omega
  | cons c l ih =>
    rw [List.mem_cons, not_or] at hl
    rw [List.cons_append, List.cons_append, scanLine]
    by_cases hc : c = cr
    · have hshown : shown (c :: l) = shown l := List.filter_cons_of_neg (by simp [hc])
      rw [if_pos hc]
      rw [hshown] at hlen
      exact ih hl.2 out hout hlen
    · have hshown : shown (c :: l) = c :: shown l := List.filter_cons_of_pos (by simp [hc])
      rw [if_neg hc, if_neg (Ne.symm hl.1)]
      by_cases hlong : max < (out ++ [c]).length
      · exact ⟨_, if_pos hlong⟩
      · rw [if_neg hlong]
        rw [hshown, List.append_cons] at hlen
        exact ih hl.2 (out ++ [c]) (Nat.le_of_not_lt hlong) hlen

/-- A line that is not too long is read whole. -/
theorem readLine_line (max : Nat) {l : Bytes} (hl : lf ∉ l) (rest : Bytes) (w : Wire)
    (hlen : (shown l).length ≤ max) :
    readLine max [] (.sent (l ++ crlf ++ rest) :: w) = (some (shown l), .sent rest :: w) := by
  rw [readLine, scanLine_line hl [] rest hlen]
  rfl

theorem readLine_long {max : Nat} {l : Bytes} (hl : lf ∉ l) (rest : Bytes) (w : Wire)
    (hlen : max < (shown l).length) :
    (readLine max [] (.sent (l ++ crlf ++ rest) :: w)).1 = none := by
  obtain ⟨rest', h⟩ := scanLine_long hl [] rest (Nat.zero_le _) hlen
  rw [readLine, h]

theorem readExact_sent (data rest : Bytes) (w : Wire) :
    readExact data.length (.sent (data ++ rest) :: w) = some (data, .sent rest :: w) := by
  induction data with
  | nil => rfl
  | cons c data ih =>
    rw [List.length_cons, readExact, List.cons_append, recvByte]
    change readExact data.length (.sent (data ++ rest) :: w) >>= _ = _
    rw [ih]
    rfl

/-! ## Commands -/

/-- No literal is read. -/
def Next.Plain : Next → Prop
  | .literal .. => False
  | _ => True

theorem Next.Plain.ite {p : Prop} [Decidable p] {a b : Next} (ha : p → a.Plain) (hb : ¬p → b.Plain) :
    (if p then a else b).Plain := by
  split
  · exact ha ‹_›
  · exact hb ‹_›

section Commands

variable (h : Host) (s : Session)

theorem failed_plain (reply : Bytes) : (failed h s reply).Plain := by
  unfold failed
  dsimp only
  split <;> trivial

theorem startTls_plain (tag : Bytes) : (startTls h s tag).Plain := by
  unfold startTls
  dsimp only
  split_ifs <;> trivial

theorem idle_plain (tag : Bytes) : (idle s tag).Plain := by
  unfold idle
  split_ifs <;> trivial

theorem login_plain (tag args : Bytes) : (login h s tag args).Plain := by
  unfold login
  split_ifs
  · trivial
  · split
    · trivial
    · exact failed_plain h s _

theorem select_plain (tag cmd args : Bytes) : (select h s tag cmd args).Plain := by
  unfold select
  split_ifs <;> trivial

theorem mailboxCommand_plain (needsSelected : Bool) (tag cmd args : Bytes) :
    (mailboxCommand h needsSelected s tag cmd args).Plain := by
  unfold mailboxCommand
  split_ifs <;> trivial

/-- Only APPEND reads a literal. -/
theorem command_plain {line : Bytes} (hcmd : (parseCommand line).2.1 ≠ ascii "APPEND") :
    (command h s line).Plain := by
  rcases hparse : parseCommand line with ⟨tag, cmd, args⟩
  rw [hparse] at hcmd
  unfold command
  rw [hparse]
  refine .ite (fun _ => failed_plain h s _) fun _ => ?_
  refine .ite (fun _ => trivial) fun _ => .ite (fun _ => startTls_plain h s tag) fun _ => ?_
  refine .ite (fun _ => trivial) fun _ => .ite (fun _ => idle_plain s tag) fun _ => ?_
  refine .ite (fun _ => trivial) fun _ => .ite (fun _ => login_plain h s tag args) fun _ => ?_
  refine .ite (fun _ => select_plain h s tag cmd args) fun _ => ?_
  refine .ite (fun _ => mailboxCommand_plain h s false tag cmd args) fun _ => ?_
  refine .ite (fun _ => mailboxCommand_plain h s true tag cmd args) fun _ => ?_
  refine .ite (fun happend => absurd happend hcmd) fun _ => .ite (fun _ => trivial) fun _ => ?_
  refine .ite (fun _ => trivial) fun _ => ?_
  exact .ite (fun _ => mailboxCommand_plain h s true tag cmd args) fun _ => failed_plain h s _

end Commands

theorem parseCommand_of {tag verb : Bytes} (htag : 0x20 ∉ tag) (hverb : 0x20 ∉ verb) (args : Bytes) :
    parseCommand (tag ++ 0x20 :: (verb ++ 0x20 :: args)) = (tag, upper verb, args) := by
  rw [parseCommand, breakOn_single htag]
  dsimp only
  rw [breakOn_single hverb]

theorem cutLast_of {c : UInt8} {t : Bytes} (ht : c ∉ t) (x : Bytes) :
    cutLast c (x ++ c :: t) = some (x, t) := by
  have hrev : (x ++ c :: t).reverse = t.reverse ++ c :: x.reverse := by simp
  rw [cutLast, hrev, breakOn_single (by rwa [List.mem_reverse]), Option.map_some]
  dsimp only
  rw [List.reverse_reverse, List.reverse_reverse]

theorem literalSize_of {digits : Bytes} (hdigits : digits.all isDigit) (sync : Bool) :
    literalSize (digits ++ if sync then [] else [0x2B]) = (digits, !sync) := by
  cases sync with
  | false =>
    rw [literalSize, if_neg Bool.false_ne_true, List.getLast?_concat, if_pos rfl,
      List.dropLast_concat]
    rfl
  | true =>
    have hlast : digits.getLast? ≠ some 0x2B := by
      intro hplus
      have hmem := List.mem_of_getLast? hplus
      have hdigit := List.all_eq_true.mp hdigits _ hmem
      revert hdigit
      decide
    rw [if_pos rfl, List.append_nil, literalSize, if_neg hlast]
    rfl

/-- The digits, the plus and the brace hold no opening brace and one closing brace. -/
theorem notMem_size {digits : Bytes} (hdigits : digits.all isDigit) (sync : Bool) {c : UInt8}
    (hc : isDigit c = false) (hplus : c ≠ 0x2B) : c ∉ digits ++ if sync then [] else [0x2B] := by
  rw [List.mem_append, not_or]
  constructor
  · intro hmem
    have hdigit := List.all_eq_true.mp hdigits _ hmem
    rw [hc] at hdigit
    cases hdigit
  · cases sync with
    | true => exact List.not_mem_nil
    | false => exact fun hmem => hplus (List.mem_singleton.mp hmem)

/-- A literal is read if and only if the APPEND is not refused before. -/
theorem append_announced (h : Host) (s : Session) (tag args : Bytes) {digits : Bytes}
    (hne : digits ≠ []) (hdigits : digits.all isDigit) (sync : Bool) :
    (s.authenticated ∧ digitsValue digits < 2 ^ 64 ∧ digitsValue digits ≤ h.maxLiteral ∧
        resolveMailbox h s.root ((words args).headD []) ≠ [] ∧
        ∃ s' finish,
          append h s tag (args ++ 0x7B :: (digits ++ (if sync then [] else [0x2B]) ++ [0x7D])) =
          .literal s' sync (digitsValue digits) finish) ∨
      ¬(s.authenticated ∧ digitsValue digits < 2 ^ 64 ∧ digitsValue digits ≤ h.maxLiteral ∧
        resolveMailbox h s.root ((words args).headD []) ≠ []) ∧
        ∃ s', append h s tag (args ++ 0x7B :: (digits ++ (if sync then [] else [0x2B]) ++ [0x7D])) =
          .go s' := by
  have hbrace : 0x7B ∉ digits ++ (if sync then [] else [0x2B]) ++ [0x7D] := by
    rw [List.mem_append, not_or]
    exact ⟨notMem_size hdigits sync (by decide) (by decide), by decide⟩
  have hopen := cutLast_of hbrace args
  have hclose : cutLast 0x7D (digits ++ (if sync then [] else [0x2B]) ++ [0x7D]) =
      some (digits ++ if sync then [] else [0x2B], []) := cutLast_of List.not_mem_nil _
  have hsome : ¬(digits = [] ∨ ¬digits.all isDigit = true) := by
    rintro (hnil | hall)
    · exact hne hnil
    · exact hall hdigits
  unfold append
  rw [hopen]
  dsimp only
  rw [hclose]
  dsimp only
  rw [literalSize_of hdigits sync]
  dsimp only
  rw [if_neg hsome]
  by_cases hauth : s.authenticated
  · by_cases hbig : digitsValue digits < 2 ^ 64
    · by_cases hmax : digitsValue digits ≤ h.maxLiteral
      · by_cases hbox : resolveMailbox h s.root ((words args).headD []) = []
        · refine .inr ⟨fun hacc => hacc.2.2.2 hbox, ?_⟩
          rw [if_neg (by simpa using hauth), if_neg (Nat.not_le.mpr hbig), if_neg (Nat.not_lt.mpr hmax),
            if_pos hbox]
          exact ⟨_, rfl⟩
        · refine .inl ⟨hauth, hbig, hmax, hbox, ?_⟩
          rw [if_neg (by simpa using hauth), if_neg (Nat.not_le.mpr hbig), if_neg (Nat.not_lt.mpr hmax),
            if_neg hbox, Bool.not_not]
          exact ⟨_, _, rfl⟩
      · refine .inr ⟨fun hacc => hmax hacc.2.2.1, ?_⟩
        rw [if_neg (by simpa using hauth), if_neg (Nat.not_le.mpr hbig), if_pos (Nat.not_le.mp hmax)]
        exact ⟨_, rfl⟩
    · refine .inr ⟨fun hacc => hbig hacc.2.1, ?_⟩
      rw [if_neg (by simpa using hauth), if_pos (Nat.not_lt.mp hbig)]
      exact ⟨_, rfl⟩
  · refine .inr ⟨fun hacc => hauth hacc.1, ?_⟩
    rw [if_pos (by simpa using hauth)]
    exact ⟨_, rfl⟩

theorem command_append (h : Host) (s : Session) {line tag args : Bytes}
    (hparse : parseCommand line = (tag, ascii "APPEND", args)) (htag : tag ≠ []) :
    command h s line = append h s tag args := by
  rw [command, hparse]
  dsimp only
  rw [if_neg htag, if_neg (by decide), if_neg (by decide), if_neg (by decide), if_neg (by decide),
    if_neg (by decide), if_neg (by decide), if_neg (by decide), if_neg (by decide),
    if_neg (by decide), if_pos rfl]

/-- What the command in an announcing line does. -/
theorem command_announced (h : Host) (s : Session) {l : Bytes} {n : Nat} {sync : Bool}
    (hl : Announces l n sync) :
    Accepted h s l n ∧ (∃ s' finish, command h s l = .literal s' sync n finish) ∨
      ¬Accepted h s l n ∧ ∃ s', command h s l = .go s' := by
  obtain ⟨tag, verb, args, digits, htag, hspace, hverb, happend, hne, hdigits, rfl, rfl⟩ := hl
  have hparse := parseCommand_of hspace hverb
    (args ++ 0x7B :: (digits ++ (if sync then [] else [0x2B]) ++ [0x7D]))
  rw [happend] at hparse
  have hbrace : 0x7B ∉ digits ++ (if sync then [] else [0x2B]) ++ [0x7D] := by
    rw [List.mem_append, not_or]
    exact ⟨notMem_size hdigits sync (by decide) (by decide), by decide⟩
  have hcommand := command_append h s hparse htag
  have hmailbox : mailboxOf (tag ++ 0x20 :: (verb ++ 0x20 ::
      (args ++ 0x7B :: (digits ++ (if sync then [] else [0x2B]) ++ [0x7D])))) =
        (words args).headD [] := by
    rw [mailboxOf, hparse]
    dsimp only
    rw [cutLast_of hbrace args]
  rw [Accepted, hmailbox, hcommand]
  obtain ⟨hauth, hbig, hmax, hbox, hliteral⟩ | hrefused :=
    append_announced h s tag args hne hdigits sync
  · exact .inl ⟨⟨hauth, hbig, hmax, hbox⟩, hliteral⟩
  · exact .inr hrefused

/-! ## Turns -/

theorem shown_of_notMem {l : Bytes} (h : cr ∉ l) : shown l = l :=
  List.filter_eq_self.mpr fun c hc => by
    have hne : c ≠ cr := fun heq => h (heq ▸ hc)
    simpa using hne

/-- An APPEND is not DONE. -/
theorem announced_ne_done {l : Bytes} {n : Nat} {sync : Bool} (hl : Announces l n sync) :
    upper l ≠ ascii "DONE" := by
  obtain ⟨tag, verb, args, digits, _, _, _, _, _, _, _, rfl⟩ := hl
  intro hdone
  have hmem : (0x20 : UInt8) ∈ upper (tag ++ 0x20 :: (verb ++ 0x20 ::
      (args ++ 0x7B :: (digits ++ (if sync then [] else [0x2B]) ++ [0x7D])))) :=
    List.mem_map.mpr ⟨0x20, List.mem_append_right _ List.mem_cons_self, rfl⟩
  rw [hdone] at hmem
  revert hmem
  decide

/-- The first line of what is on the wire. -/
theorem readLine_item (max : Nat) {w w' : Wire} {l : Bytes} (hl : lf ∉ l) (rest : Bytes)
    (hw : settle w = settle (.sent (l ++ crlf ++ rest) :: w')) (hlen : (shown l).length ≤ max) :
    readLine max [] w = (some (shown l), .sent rest :: w') := by
  rw [← readLine_settle max [] w, hw, readLine_settle]
  exact readLine_line max hl rest w' hlen

theorem readLine_item_long {max : Nat} {w w' : Wire} {l : Bytes} (hl : lf ∉ l) (rest : Bytes)
    (hw : settle w = settle (.sent (l ++ crlf ++ rest) :: w')) (hlen : max < (shown l).length) :
    (readLine max [] w).1 = none := by
  rw [← readLine_settle max [] w, hw, readLine_settle]
  exact readLine_long hl rest w' hlen

theorem turn_eq_some {h : Host} {c c' : Config} (hturn : turn h c = some c') :
    ∃ line w, readLine h.maxLine [] c.wire = (some line, w) ∧
      ((∃ tag, c.session.idling = some tag ∧ upper line = ascii "DONE" ∧ c'.wire = w) ∨
        c.session.idling = none ∧ ((∃ s, command h c.session line = .go s ∧ c'.wire = w) ∨
          ∃ s sync size finish, command h c.session line = .literal s sync size finish ∧
            readLiteral h sync size finish w = some c')) := by
  unfold turn at hturn
  rcases hread : readLine h.maxLine [] c.wire with ⟨_ | line, w⟩
  · rw [hread] at hturn
    cases hturn
  · rw [hread] at hturn
    refine ⟨line, w, rfl, ?_⟩
    dsimp only at hturn
    cases hidle : c.session.idling with
    | some tag =>
      rw [hidle] at hturn
      dsimp only at hturn
      split at hturn
      · rename_i hdone
        cases hturn
        exact .inl ⟨tag, rfl, hdone, rfl⟩
      · cases hturn
    | none =>
      rw [hidle] at hturn
      dsimp only at hturn
      refine .inr ⟨rfl, ?_⟩
      cases hcommand : command h c.session line with
      | go s =>
        rw [hcommand] at hturn
        cases hturn
        exact .inl ⟨s, rfl, rfl⟩
      | close s =>
        rw [hcommand] at hturn
        cases hturn
      | literal s sync size finish =>
        rw [hcommand] at hturn
        exact .inr ⟨s, sync, size, finish, rfl, hturn⟩

/-- The literal is read to its end, and the end of its line behind it. -/
theorem readLiteral_wire {h : Host} {sync : Bool} {finish : Bytes → Session} {w w' : Wire}
    {literal : Bytes} {c : Config}
    (hw : (if sync then goAhead w else w) = .sent (literal ++ crlf) :: w')
    (hread : readLiteral h sync literal.length finish w = some c) : c.wire = .sent [] :: w' := by
  rw [readLiteral, hw, readExact_sent] at hread
  cases hread
  have hline := readLine_line h.maxLine (l := []) List.not_mem_nil [] w' (Nat.zero_le _)
  exact congrArg Prod.snd hline

/-- A turn that begins at an item ends at one. -/
theorem turn_atItem {h : Host} {script : List Item} (hvalid : ∀ item ∈ script, item.Valid)
    {c c' : Config} (hc : AtItem script c.wire) (hok : AcceptsPlus h script c)
    (hturn : turn h c = some c') : AtItem script c'.wire := by
  obtain ⟨items, hsuffix, hw⟩ := hc
  obtain ⟨line, w, hread, hcases⟩ := turn_eq_some hturn
  cases items with
  | nil =>
    rw [← readLine_settle, hw] at hread
    cases hread
  | cons item items =>
    have hitem := hvalid item (hsuffix.subset List.mem_cons_self)
    have hrest : items <:+ script := (List.suffix_cons item items).trans hsuffix
    cases item with
    | line l =>
      obtain ⟨hl, hcmd⟩ := hitem
      have hfront : settle c.wire = settle (.sent (l ++ crlf ++ []) :: wireOf items) := by
        rw [hw, List.append_nil]
        rfl
      by_cases hlen : (shown l).length ≤ h.maxLine
      · have hitemread := readLine_item h.maxLine hl [] hfront hlen
        obtain ⟨hline, hwire⟩ := Prod.mk.inj (hread.symm.trans hitemread)
        cases hline
        obtain ⟨tag, _, _, hc'⟩ | ⟨_, ⟨s, _, hc'⟩ | ⟨s, sync, size, finish, hcommand, _⟩⟩ := hcases
        · exact ⟨items, hrest, by rw [hc', hwire]; rfl⟩
        · exact ⟨items, hrest, by rw [hc', hwire]; rfl⟩
        · have hplain := command_plain h c.session hcmd
          rw [hcommand] at hplain
          exact hplain.elim
      · have hlong := readLine_item_long hl [] hfront (Nat.not_le.mp hlen)
        rw [hread] at hlong
        cases hlong
    | append l literal sync =>
      obtain ⟨hl, hcr, hannounced⟩ := hitem
      have hshown := shown_of_notMem hcr
      -- what is behind the line: the literal if it is on the wire already
      obtain ⟨behind, w', hsent, hbehind⟩ : ∃ behind w',
          wireOf (.append l literal sync :: items) = .sent (l ++ crlf ++ behind) :: w' ∧
          (sync = true ∧ behind = [] ∧ w' = .held (literal ++ crlf) :: wireOf items ∨
            sync = false ∧ behind = literal ++ crlf ∧ w' = wireOf items) := by
        cases sync with
        | true => exact ⟨[], _, by rw [List.append_nil]; rfl, .inl ⟨rfl, rfl, rfl⟩⟩
        | false => exact ⟨literal ++ crlf, _, by rw [← List.append_assoc]; rfl, .inr ⟨rfl, rfl, rfl⟩⟩
      rw [hsent] at hw
      by_cases hlen : (shown l).length ≤ h.maxLine
      · obtain ⟨hline, hwire⟩ :=
          Prod.mk.inj (hread.symm.trans (readLine_item h.maxLine hl behind hw hlen))
        cases hline
        rw [hshown] at hcases hlen
        obtain ⟨tag, _, hdone, _⟩ | ⟨hidle, hgo⟩ := hcases
        · exact absurd hdone (announced_ne_done hannounced)
        · obtain ⟨hacc, s₁, finish₁, hcommand⟩ | ⟨hrefused, s₁, hcommand⟩ :=
            command_announced h c.session hannounced
          · rw [hcommand] at hgo
            obtain ⟨s, hcontra, _⟩ | ⟨s, sync', size, finish, heq, hliteral⟩ := hgo
            · cases hcontra
            · cases heq
              refine ⟨items, hrest, ?_⟩
              have hahead : (if sync then goAhead w else w) =
                  .sent (literal ++ crlf) :: wireOf items := by
                obtain ⟨rfl, rfl, rfl⟩ | ⟨rfl, rfl, rfl⟩ := hbehind <;> rw [hwire] <;> rfl
              rw [readLiteral_wire hahead hliteral]
              rfl
          · rw [hcommand] at hgo
            obtain ⟨s, _, hc'⟩ | ⟨s, sync', size, finish, hcontra, _⟩ := hgo
            · obtain ⟨rfl, rfl, rfl⟩ | ⟨rfl, rfl, rfl⟩ := hbehind
              · exact ⟨items, hrest, by rw [hc', hwire]; rfl⟩
              · exact absurd (hok l literal items hsuffix (by rw [hw, hsent]) hidle hlen) hrefused
            · cases hcontra
      · have hlong := readLine_item_long hl behind hw (Nat.not_le.mp hlen)
        rw [hread] at hlong
        cases hlong

/-! ## The literal that is not read -/

/-- The bytes that the client sends without being asked. -/
def plainLength : Wire → Nat
  | [] => 0
  | .held _ :: w => plainLength w
  | .sent s :: w => s.length + plainLength w

theorem plainLength_settle (w : Wire) : plainLength (settle w) = plainLength w := by
  fun_induction settle w with
  | case1 s w ih => exact ih
  | case2 w ih => rw [ih, plainLength, List.length_nil, Nat.zero_add]
  | case3 => rfl

theorem plainLength_append (w w' : Wire) : plainLength (w ++ w') = plainLength w + plainLength w' := by
  induction w with
  | nil => exact (Nat.zero_add _).symm
  | cons segment w ih =>
    cases segment with
    | sent s => rw [List.cons_append, plainLength, plainLength, ih, Nat.add_assoc]
    | held s => exact ih

theorem plainLength_le_of_suffix {items items' : List Item} (h : items <:+ items') :
    plainLength (wireOf items) ≤ plainLength (wireOf items') := by
  obtain ⟨front, rfl⟩ := h
  rw [wireOf, wireOf, List.flatMap_append, plainLength_append]
  exact Nat.le_add_left _ _

theorem plainLength_append_plus (l literal : Bytes) (items : List Item) :
    plainLength (wireOf (.append l literal false :: items)) =
      l.length + 2 + literal.length + 2 + plainLength (wireOf items) := by
  have hcons : wireOf (.append l literal false :: items) =
      .sent (l ++ crlf ++ literal ++ crlf) :: wireOf items := rfl
  have hcrlf : crlf.length = 2 := rfl
  rw [hcons, plainLength, List.length_append, List.length_append, List.length_append, hcrlf]

/-- Before the bytes of a literal that nobody reads, the server is not at an item. -/
theorem literal_notAtItem {script items : List Item} {l literal : Bytes}
    (hsuffix : .append l literal false :: items <:+ script) :
    ¬AtItem script (.sent (literal ++ crlf) :: wireOf items) := by
  rintro ⟨items', hsuffix', hw⟩
  have hlength := congrArg plainLength hw
  rw [plainLength_settle, plainLength_settle, plainLength, List.length_append] at hlength
  have hcrlf : crlf.length = 2 := rfl
  obtain hshort | hlong := List.suffix_or_suffix_of_suffix hsuffix' hsuffix
  · obtain heq | hshort := List.suffix_cons_iff.mp hshort
    · rw [heq, plainLength_append_plus] at hlength
      omega
    · have hle := plainLength_le_of_suffix hshort
      omega
  · have hle := plainLength_le_of_suffix hlong
    rw [plainLength_append_plus] at hle
    omega

/-- After an APPEND with a plus that is refused, its literal is what the next turn reads. -/
theorem turn_refused {h : Host} {script items : List Item} (hvalid : ∀ item ∈ script, item.Valid)
    {c : Config} {l literal : Bytes} (hsuffix : .append l literal false :: items <:+ script)
    (hw : settle c.wire = settle (wireOf (.append l literal false :: items)))
    (hidle : c.session.idling = none) (hlen : l.length ≤ h.maxLine)
    (hrefused : ¬Accepted h c.session l literal.length) :
    ∃ s, turn h c = some ⟨s, .sent (literal ++ crlf) :: wireOf items⟩ := by
  obtain ⟨hl, hcr, hannounced⟩ := hvalid _ (hsuffix.subset List.mem_cons_self)
  have hshown := shown_of_notMem hcr
  have hsent : wireOf (.append l literal false :: items) =
      .sent (l ++ crlf ++ (literal ++ crlf)) :: wireOf items := by
    rw [← List.append_assoc]
    rfl
  rw [hsent] at hw
  have hread := readLine_item h.maxLine hl (literal ++ crlf) hw (by rwa [hshown])
  rw [hshown] at hread
  obtain ⟨hacc, _⟩ | ⟨_, s, hcommand⟩ := command_announced h c.session hannounced
  · exact absurd hacc hrefused
  · refine ⟨s, ?_⟩
    rw [turn, hread]
    dsimp only
    rw [hidle]
    dsimp only
    rw [hcommand]

/-! ## The session -/

/-- What one turn keeps, every turn keeps. -/
theorem after_atItem {hosts : Nat → Host} {script : List Item}
    (hvalid : ∀ item ∈ script, item.Valid) (s : Session)
    (hok : ∀ i c, after hosts ⟨s, wireOf script⟩ i = some c → AcceptsPlus (hosts i) script c) :
    ∀ i c, after hosts ⟨s, wireOf script⟩ i = some c → AtItem script c.wire := by
  intro i
  induction i with
  | zero =>
    intro c hc
    cases hc
    exact ⟨script, List.suffix_rfl, rfl⟩
  | succ i ih =>
    intro c hc
    obtain ⟨before, hbefore, hturn⟩ := Option.bind_eq_some_iff.mp hc
    exact turn_atItem hvalid (ih before hbefore) (hok i before hbefore) hturn

/--
Every turn begins at a line of the client if and only if no APPEND is refused whose literal the
client has sent already.
-/
theorem literals_apart_iff (hosts : Nat → Host) (script : List Item)
    (hvalid : ∀ item ∈ script, item.Valid) (s : Session) :
    (∀ i c, after hosts ⟨s, wireOf script⟩ i = some c → AtItem script c.wire) ↔
      ∀ i c, after hosts ⟨s, wireOf script⟩ i = some c → AcceptsPlus (hosts i) script c := by
  constructor
  · intro hall i c hc l literal items hsuffix hw hidle hlen
    by_contra hrefused
    obtain ⟨s', hturn⟩ := turn_refused hvalid hsuffix hw hidle hlen hrefused
    have hafter : after hosts ⟨s, wireOf script⟩ (i + 1) =
        some ⟨s', .sent (literal ++ crlf) :: wireOf items⟩ :=
      Option.bind_eq_some_iff.mpr ⟨c, hc, hturn⟩
    exact literal_notAtItem hsuffix (hall (i + 1) _ hafter)
  · exact after_atItem hvalid s

/-- A host without TLS that knows no user. -/
def Host.locked : Host where
  sslCtx := false
  handshake := false
  auth _ _ := none
  folder root _ := root
  build _ := []
  store _ _ _ := false
  answer _ _ _ s := ([], s.messages)
  maxLine := 8192
  maxLiteral := 33554432
  maxErrors := 5

/-- A message whose text is a command. -/
def smuggled : List Item := [.append (ascii "a APPEND Sent \x7b6+\x7d") (ascii "b NOOP") false]

theorem smuggled_valid : ∀ item ∈ smuggled, item.Valid := by
  intro item hmem
  rw [List.mem_singleton.mp hmem]
  refine ⟨by decide +kernel, by decide +kernel, ?_⟩
  exact ⟨ascii "a", ascii "APPEND", ascii "Sent ", ascii "6", by decide +kernel⟩

/-- The text of the message that is refused is answered as a command. -/
theorem smuggled_run :
    (∀ item ∈ smuggled, item.Valid) ∧
      (∃ c, after (fun _ => .locked) ⟨.start .locked false, wireOf smuggled⟩ 1 = some c ∧
        ¬AtItem smuggled c.wire) ∧
      (after (fun _ => .locked) ⟨.start .locked false, wireOf smuggled⟩ 2).map
          (fun c => c.session.sent.drop 1) =
        some [ascii "a NO LOGIN required first\r\n", ascii "b OK NOOP completed\r\n"] := by
  refine ⟨smuggled_valid, ?_, by decide +kernel⟩
  obtain ⟨s, hturn⟩ := turn_refused (h := .locked) (c := ⟨.start .locked false, wireOf smuggled⟩)
    smuggled_valid List.suffix_rfl rfl rfl (by decide +kernel) fun haccepted =>
      absurd haccepted.1 (by decide +kernel)
  exact ⟨_, hturn, literal_notAtItem List.suffix_rfl⟩

theorem literals_apart_iff_smuggled :
    (∀ i c, after (fun _ => .locked) ⟨.start .locked false, wireOf smuggled⟩ i = some c →
        AtItem smuggled c.wire) ↔
      ∀ i c, after (fun _ => .locked) ⟨.start .locked false, wireOf smuggled⟩ i = some c →
        AcceptsPlus .locked smuggled c :=
  literals_apart_iff (fun _ => .locked) smuggled smuggled_valid (.start .locked false)

end Imap

end Look
