/-
When `spf_evaluate` gives the result of RFC 7208.

The words of a record are its terms, so the loop is first taken from the words to the terms.  A
call then agrees with the standard if and only if the conditions in `FineTerms` hold at the terms
that the loop reaches.
-/
import Look.Net.Spf
import Mathlib.Algebra.Group.Int.Defs
import Mathlib.Algebra.Group.Nat.Defs
import Mathlib.Data.List.TakeWhile

namespace Look

namespace Spf

open Http (Bytes sp lower isDigit decimal)
open Smtp (isSpace)

/-! ## `ip4` -/

/-- A masked address is known from its high-order bits. -/
theorem mask_eq_iff (x y : BitVec 32) (k : Nat) :
    x &&& (BitVec.allOnes 32 <<< k) = y &&& (BitVec.allOnes 32 <<< k) ↔
      x.toNat / 2 ^ k = y.toNat / 2 ^ k := by
  have hmask : ∀ (v : BitVec 32) (i : Nat), k ≤ i →
      (v &&& (BitVec.allOnes 32 <<< k)).getLsbD i = v.getLsbD i := by
    intro v i hi
    by_cases hlt : i < 32
    · have hlow : (decide (i < k)) = false := decide_eq_false (Nat.not_lt.mpr hi)
      have hhigh : (decide (i - k < 32)) = true := decide_eq_true (by omega)
      rw [BitVec.getLsbD_and, BitVec.getLsbD_shiftLeft, BitVec.getLsbD_allOnes, hlow, hhigh,
        decide_eq_true hlt]
      exact Bool.and_true _
    · simp [hlt, BitVec.getLsbD_of_ge v i (by omega)]
  constructor
  · intro h
    refine Nat.eq_of_testBit_eq fun i => ?_
    have hbit := congrArg (fun v : BitVec 32 => v.getLsbD (k + i)) h
    simp only [hmask _ _ (Nat.le_add_right k i)] at hbit
    rw [Nat.testBit_div_two_pow, Nat.testBit_div_two_pow, Nat.add_comm i k]
    exact hbit
  · intro h
    refine BitVec.eq_of_getLsbD_eq fun i hi => ?_
    by_cases hk : k ≤ i
    · have hbit := congrArg (fun v : Nat => v.testBit (i - k)) h
      simp only [Nat.testBit_div_two_pow, Nat.sub_add_cancel hk] at hbit
      rw [hmask _ _ hk, hmask _ _ hk]
      exact hbit
    · have hzero : ∀ v : BitVec 32, (v &&& (BitVec.allOnes 32 <<< k)).getLsbD i = false := by
        intro v
        simp [hi]
        omega
      rw [hzero, hzero]

theorem visible_not_space (c : UInt8) (h : 33 ≤ c) : isSpace c = false := by
  rw [isSpace, Bool.or_eq_false_iff, Bool.and_eq_false_iff]
  refine ⟨beq_eq_false_iff_ne.mpr ?_, Or.inr (decide_eq_false fun hle => ?_)⟩
  · rintro rfl
    exact absurd h (by decide)
  · exact absurd (UInt8.le_trans h hle) (by decide)

theorem digit_ne {c : UInt8} (h : isDigit c = true) :
    c ≠ 0 ∧ c ≠ 43 ∧ c ≠ 45 ∧ isSpace c = false := by
  have hlow : 48 ≤ c := of_decide_eq_true (Bool.and_eq_true_iff.mp h).1
  refine ⟨?_, ?_, ?_, visible_not_space c (UInt8.le_trans (by decide) hlow)⟩
  all_goals
    rintro rfl
    exact absurd h (by decide)

theorem cString_eq {s : Bytes} (h : 0 ∉ s) : cString s = s := by
  rw [cString, List.takeWhile_eq_self_iff]
  intro c hc
  refine decide_eq_true ?_
  rintro rfl
  exact h hc

theorem atoi_digits {s : Bytes} (hne : s ≠ []) (h : s.all isDigit = true) : atoi s = decimal s := by
  cases s with
  | nil => exact absurd rfl hne
  | cons c s =>
    have hdigits : ∀ b ∈ c :: s, isDigit b = true := List.all_eq_true.mp h
    obtain ⟨-, hplus, hminus, hspace⟩ := digit_ne (hdigits c List.mem_cons_self)
    rw [atoi, List.dropWhile_cons, hspace, if_neg Bool.false_ne_true]
    change (if c = 45 then _ else if c = 43 then _ else _) = _
    rw [if_neg hminus, if_neg hplus, List.takeWhile_eq_self_iff.mpr hdigits]

theorem octet_some {part : Bytes} {n : Nat} (h : octet part = some n) : part.all isDigit = true := by
  rw [octet] at h
  split at h
  · rename_i hpart
    exact hpart.2.1
  · cases h

theorem digits_inetPton {s : Bytes} {n : BitVec 32} (h : inetPton s = some n) :
    ∀ part ∈ s.splitOn dot, part.all isDigit = true := by
  rw [inetPton] at h
  split at h
  · rename_i a b c d hsplit
    obtain ⟨va, ha, h⟩ := Option.bind_eq_some_iff.mp h
    obtain ⟨vb, hb, h⟩ := Option.bind_eq_some_iff.mp h
    obtain ⟨vc, hc, h⟩ := Option.bind_eq_some_iff.mp h
    obtain ⟨vd, hd, -⟩ := Option.bind_eq_some_iff.mp h
    rw [hsplit]
    intro part hpart
    simp only [List.mem_cons, List.not_mem_nil, or_false] at hpart
    rcases hpart with rfl | rfl | rfl | rfl
    · exact octet_some ha
    · exact octet_some hb
    · exact octet_some hc
    · exact octet_some hd
  · cases h

theorem notMem_inetPton {s : Bytes} {n : BitVec 32} (h : inetPton s = some n) : (0 : UInt8) ∉ s := by
  have hparts := digits_inetPton h
  obtain ⟨x, l, hsplit, -, -, hs⟩ := exists_splitOn dot s
  rw [hsplit, List.forall_mem_cons] at hparts
  have hnot : ∀ part : Bytes, part.all isDigit = true → (0 : UInt8) ∉ part :=
    fun part hpart hmem => (digit_ne (List.all_eq_true.mp hpart 0 hmem)).1 rfl
  rw [hs, List.mem_append, List.mem_flatMap]
  rintro (hx | ⟨part, hpart, hmem⟩)
  · exact hnot x hparts.1 hx
  · rcases List.mem_cons.mp hmem with hdot | hmem
    · exact absurd hdot (by decide)
    · exact hnot part (hparts.2 part hpart) hmem

theorem mask_eq (network address : BitVec 32) (length : Nat) :
    (network &&& (BitVec.allOnes 32 <<< (32 - length)) ==
      address &&& (BitVec.allOnes 32 <<< (32 - length))) = inNetwork address network length := by
  rw [inNetwork, Bool.eq_iff_iff, beq_iff_eq, mask_eq_iff, decide_eq_true_iff]
  exact eq_comm

/-- The comparison behind the parsing of the network and the length. -/
theorem match_lengths {network address : BitVec 32} {length : Nat} (hlen : length ≤ 32) :
    (if (length : Int) < 0 ∨ 32 < (length : Int) then false
      else if (length : Int) = 0 then true
      else
        let mask : BitVec 32 :=
          if (length : Int) = 32 then BitVec.allOnes 32
          else BitVec.allOnes 32 <<< (32 - (length : Int).toNat)
        network &&& mask == address &&& mask) = inNetwork address network length := by
  rw [if_neg (by omega), Int.toNat_natCast]
  by_cases hzero : length = 0
  · rw [if_pos (by omega), hzero, inNetwork, Nat.div_eq_of_lt address.isLt,
      Nat.div_eq_of_lt network.isLt]
    rfl
  · rw [if_neg (by omega)]
    by_cases hfull : length = 32
    · rw [if_pos (by omega), ← mask_eq network address length, hfull]
      rfl
    · rw [if_neg (by omega)]
      exact mask_eq network address length

theorem spfMatchIp4_eq {mech remoteIp : Bytes} {network address : BitVec 32} {length : Nat}
    (hparse : parseIp4 (mech.drop 4) = some (network, length))
    (hip : inetPton (cString remoteIp) = some address) :
    spfMatchIp4 mech remoteIp = inNetwork address network length := by
  rw [parseIp4] at hparse
  rw [spfMatchIp4]
  cases hslash : breakOn [slash] (mech.drop 4) with
  | none =>
    rw [hslash] at hparse
    obtain ⟨n, hn, heq⟩ := Option.map_eq_some_iff.mp hparse
    cases heq
    simp only [cString_eq (notMem_inetPton hn), hn, hip]
    exact match_lengths (Nat.le_refl 32)
  | some parts =>
    obtain ⟨net, len⟩ := parts
    rw [hslash] at hparse
    obtain ⟨n, hn, hparse⟩ := Option.bind_eq_some_iff.mp hparse
    obtain ⟨l, hl, heq⟩ := Option.bind_eq_some_iff.mp hparse
    cases heq
    rw [cidrLength] at hl
    split at hl
    · rename_i hlen
      cases hl
      have hzero : (0 : UInt8) ∉ len :=
        fun hmem => (digit_ne (List.all_eq_true.mp hlen.2.1 0 hmem)).1 rfl
      simp only [cString_eq hzero, atoi_digits hlen.1 hlen.2.1, cString_eq (notMem_inetPton hn), hn,
        hip]
      exact match_lengths hlen.2.2.1
    · cases hl

/-! ## Words and terms -/

theorem visible_of_term {token : Bytes} {term : Term} (h : parseTerm token = some term) :
    token.all isVisible = true := by
  rw [parseTerm] at h
  split at h
  · cases h
  · rename_i hvisible
    exact (Bool.not_eq_false _).mp hvisible

theorem splitOnP_pieces {x : Bytes} {l : List Bytes} (hx : ∀ b ∈ x, isSpace b = false)
    (hl : ∀ y ∈ l, ∀ b ∈ y, isSpace b = false) :
    (x ++ l.flatMap (sp :: ·)).splitOnP isSpace = x :: l := by
  induction l generalizing x with
  | nil => rw [List.flatMap_nil, List.append_nil, List.splitOnP_eq_singleton hx]
  | cons y l ih =>
    rw [List.forall_mem_cons] at hl
    rw [List.flatMap_cons, List.cons_append,
      List.splitOnP_append_cons_of_forall_mem hx sp (by decide), ih hl.1 hl.2]

theorem mapM_some_mem {f : Bytes → Option Term} {l : List Bytes} {terms : List Term}
    (h : l.mapM f = some terms) : ∀ x ∈ l, ∃ t, f x = some t := by
  induction l generalizing terms with
  | nil => exact List.forall_mem_nil _
  | cons x l ih =>
    rw [List.mapM_cons] at h
    obtain ⟨t, ht, h⟩ := Option.bind_eq_some_iff.mp h
    obtain ⟨ts, hts, -⟩ := Option.bind_eq_some_iff.mp h
    exact List.forall_mem_cons.mpr ⟨⟨t, ht⟩, ih hts⟩

/-- The words of a record with known terms are the version and the terms. -/
theorem words_record {record : Bytes} {terms : List Term} (h : parseRecord record = some terms) :
    ∃ tokens, words record = spf1 :: tokens ∧ tokens.mapM parseTerm = some terms := by
  rw [parseRecord] at h
  obtain ⟨x, l, hsplit, -, -, hrecord⟩ := exists_splitOn sp record
  rw [hsplit] at h
  dsimp only at h
  split at h
  · rename_i hversion
    refine ⟨l.filter (· ≠ []), ?_, h⟩
    have hl : ∀ y ∈ l, ∀ b ∈ y, isSpace b = false := by
      intro y hy b hb
      have hne : y ≠ [] := List.ne_nil_of_mem hb
      obtain ⟨t, ht⟩ := mapM_some_mem h y (List.mem_filter.mpr ⟨hy, decide_eq_true hne⟩)
      have hvisible := List.all_eq_true.mp (visible_of_term ht) b hb
      exact visible_not_space b (of_decide_eq_true (Bool.and_eq_true_iff.mp hvisible).1)
    have hx : ∀ b ∈ x, isSpace b = false := by
      rw [hversion]
      have hlow : spf1.all (33 ≤ ·) = true := by decide
      exact fun b hb => visible_not_space b (of_decide_eq_true (List.all_eq_true.mp hlow b hb))
    rw [words, hrecord, splitOnP_pieces hx hl, List.filter_cons_of_pos (by rw [hversion]; decide),
      hversion]
  · cases h

section Loop

variable (dns : Dns) (address : BitVec 32) (next : Bytes → Run)

/-- A turn of the loop at a term, with the run of the turns behind it. -/
def turn (term : Term) (rest : Run) : Run :=
  match term with
  | .all q => .done q.result
  | .ip4 q network length => if inNetwork address network length then .done q.result else rest
  | .included _ d =>
    match spfRecord (dns d) with
    | some t =>
      if (next t).result = .pass then (next t).last
      else if (next t).result = .fail then (next t).last
      else (next t).after rest
    | none => (Run.done .neutral).after rest
  | .redirect d =>
    match spfRecord (dns d) with
    | some t => (next t).last
    | none => (Run.done .neutral).last

/-- The loop over the terms of a record. -/
def loopTerms : List Term → Run
  | [] => .done .neutral
  | term :: rest => turn dns address next term (loopTerms rest)

variable {dns address next} {remoteIp : Bytes}

theorem lower_take (n : Nat) (s : Bytes) : lower (s.take n) = (lower s).take n := List.map_take

theorem take_of_take {s x : Bytes} {m n : Nat} (hle : m ≤ n) (h : s.take n = x) :
    s.take m = x.take m := by
  rw [← h, List.take_take, Nat.min_eq_left hle]

theorem spfLoop_mechanism {q : Qualifier} {mech token : Bytes} {term : Term} (hne : token ≠ spf1)
    (hsplit : splitQualifier token = (q, mech)) (hterm : parseMechanism q mech = some term)
    (hip : inetPton (cString remoteIp) = some address) (rest : List Bytes) :
    spfLoop dns remoteIp next (token :: rest) =
      turn dns address next term (spfLoop dns remoteIp next rest) := by
  rw [spfLoop, if_neg hne, hsplit]
  dsimp only
  rw [parseMechanism] at hterm
  by_cases hall : lower mech = ascii "all"
  · rw [if_pos hall] at hterm ⊢
    cases hterm
    rfl
  · rw [if_neg hall, lower_take, lower_take] at hterm
    rw [if_neg hall]
    by_cases hip4 : (lower mech).take 4 = ascii "ip4:"
    · rw [if_pos hip4] at hterm ⊢
      obtain ⟨⟨network, length⟩, hparse, rfl⟩ := Option.map_eq_some_iff.mp hterm
      rw [spfMatchIp4_eq hparse hip]
      rfl
    · rw [if_neg hip4] at hterm ⊢
      by_cases hinclude : (lower mech).take 8 = ascii "include:"
      · rw [if_pos hinclude] at hterm ⊢
        split at hterm
        · cases hterm
          rfl
        · cases hterm
      · rw [if_neg hinclude] at hterm
        cases hterm

theorem letter_of_lower (c : UInt8) (h : Http.toLower c = 114) : c = 114 ∨ c = 82 := by
  rw [Http.toLower] at h
  split at h
  · rw [← UInt8.add_sub_cancel c 32, h]
    decide
  · exact Or.inl h

theorem splitQualifier_letter {c : UInt8} (h : Http.toLower c = 114) (s : Bytes) :
    splitQualifier (c :: s) = (.plus, c :: s) := by
  rcases letter_of_lower c h with rfl | rfl
  · rfl
  · rfl

theorem spfLoop_redirect {token : Bytes} (hne : token ≠ spf1)
    (h : lower (token.take 9) = ascii "redirect=") (rest : List Bytes) :
    spfLoop dns remoteIp next (token :: rest) =
      turn dns address next (.redirect (token.drop 9)) (spfLoop dns remoteIp next rest) := by
  rw [lower_take] at h
  have hsplit : splitQualifier token = (.plus, token) := by
    cases token with
    | nil => exact absurd h (by decide)
    | cons c token => exact splitQualifier_letter (List.cons.inj h).1 token
  rw [spfLoop, if_neg hne, hsplit]
  dsimp only
  have hall : lower token ≠ ascii "all" := by
    intro hall
    rw [hall] at h
    exact absurd h (by decide)
  have hip4 : (lower token).take 4 ≠ ascii "ip4:" := by
    rw [take_of_take (show 4 ≤ 9 by decide) h]
    decide
  have hinclude : (lower token).take 8 ≠ ascii "include:" := by
    rw [take_of_take (show 8 ≤ 9 by decide) h]
    decide
  rw [if_neg hall, if_neg hip4, if_neg hinclude, if_pos h]
  rfl

/-- A word is treated as the term that it is. -/
theorem spfLoop_cons {token : Bytes} {term : Term} (h : parseTerm token = some term)
    (hip : inetPton (cString remoteIp) = some address) (rest : List Bytes) :
    spfLoop dns remoteIp next (token :: rest) =
      turn dns address next term (spfLoop dns remoteIp next rest) := by
  have hne : token ≠ spf1 := by
    rintro rfl
    have hnone : parseTerm spf1 = none := by decide
    rw [hnone] at h
    cases h
  rw [parseTerm] at h
  split at h
  · cases h
  · split at h
    · rename_i hredirect
      split at h
      · cases h
        exact spfLoop_redirect hne hredirect rest
      · cases h
    · exact spfLoop_mechanism hne rfl h hip rest

theorem spfLoop_eq {tokens : List Bytes} {terms : List Term} (h : tokens.mapM parseTerm = some terms)
    (hip : inetPton (cString remoteIp) = some address) :
    spfLoop dns remoteIp next tokens = loopTerms dns address next terms := by
  induction tokens generalizing terms with
  | nil =>
    cases h
    rfl
  | cons token tokens ih =>
    rw [List.mapM_cons] at h
    obtain ⟨t, ht, h⟩ := Option.bind_eq_some_iff.mp h
    obtain ⟨ts, hts, heq⟩ := Option.bind_eq_some_iff.mp h
    cases heq
    rw [spfLoop_cons ht hip, ih hts, loopTerms]

end Loop

/-- A call of `spf_evaluate` for a record with known terms. -/
theorem spfEvaluate_succ {dns : Dns} {address : BitVec 32} {remoteIp record : Bytes}
    {terms : List Term} (h : parseRecord record = some terms)
    (hip : inetPton (cString remoteIp) = some address) (levels : Nat) :
    spfEvaluate dns remoteIp (levels + 1) record =
      let run := loopTerms dns address (spfEvaluate dns remoteIp levels) terms
      { run with calls := ⟨levels + 1, record, run.result⟩ :: run.calls } := by
  obtain ⟨tokens, hwords, htokens⟩ := words_record h
  rw [spfEvaluate, hwords, spfLoop, if_pos rfl, spfLoop_eq htokens hip]

/-! ## Where the code and the standard agree -/

section Agreement

variable (dns : Dns) (address : BitVec 32)

/-- A call gives the result that the standard gives for its record. -/
def Faithful (c : Call) : Prop :=
  c.result.verdict = (checkRecord dns address (c.levels + 1) c.record).1

/-- The conditions at the terms that the loop reaches.  An included record must pass for an include
without qualifier, or not decide the result, or fail when what follows fails too; and behind a
redirect no other result may come out. -/
def FineTerms (check : Bytes → Verdict × Nat) (fine : Bytes → Prop) (redirect : Option Bytes) :
    List Term → Prop
  | [] => True
  | .all _ :: _ => True
  | .ip4 _ network length :: rest =>
    inNetwork address network length = true ∨ FineTerms check fine redirect rest
  | .included q d :: rest =>
    ∃ t, spfRecord (dns d) = some t ∧ fine t ∧
      match (checkHost dns check d).1 with
      | .pass => q = .plus
      | .fail => (evalTerms address (checkHost dns check) redirect rest).1 = .fail
      | .softfail | .neutral => FineTerms check fine redirect rest
      | _ => False
  | .redirect d :: rest =>
    match spfRecord (dns d) with
    | some t => fine t ∧ (evalTerms address (checkHost dns check) redirect rest).1 = (check t).1
    | none => (evalTerms address (checkHost dns check) redirect rest).1 = .neutral

/-- The same for a record that is evaluated with so many levels left. -/
def Fine : Nat → Bytes → Prop
  | 0, record => (checkRecord dns address 1 record).1 = .neutral
  | levels + 1, record =>
    ∃ terms, parseRecord record = some terms ∧ (redirects terms).length ≤ 1 ∧
      FineTerms dns address (checkRecord dns address (levels + 1)) (Fine levels)
        (redirects terms).head? terms

variable {dns address}

theorem verdict_ne {v : Verdict} (h : v = .temperror ∨ v = .permerror ∨ v = .unspecified)
    (r : SpfResult) : r.verdict ≠ v := by
  rcases h with rfl | rfl | rfl <;> cases r <;> nofun

theorem contains_of_isSpfRecord {t : Bytes} (h : isSpfRecord t = true) :
    (breakOn spf1 t).isSome = true := by
  obtain ⟨x, l, hsplit, -, -, ht⟩ := exists_splitOn sp t
  rw [isSpfRecord, hsplit, List.head?_cons, decide_eq_true_iff, Option.some.injEq] at h
  have hfront : t = [] ++ spf1 ++ l.flatMap (sp :: ·) := by
    rw [ht, h]
    rfl
  obtain ⟨u, v, huv⟩ := breakOn_isSome (show spf1 ≠ [] by decide) hfront
  rw [huv]
  rfl

/-- Without a record there is no result. -/
theorem checkHost_none {check : Bytes → Verdict × Nat} {d : Bytes}
    (h : spfRecord (dns d) = none) :
    (checkHost dns check d).1 = .temperror ∨ (checkHost dns check d).1 = .none := by
  rw [checkHost]
  cases hdns : dns d with
  | none => exact Or.inl rfl
  | some txts =>
    rw [hdns, spfRecord, Option.bind_some, List.find?_eq_none] at h
    have hnil : txts.filter isSpfRecord = [] :=
      List.filter_eq_nil_iff.mpr fun t ht hspf => h t ht (contains_of_isSpfRecord hspf)
    dsimp only
    rw [hnil]
    exact Or.inr rfl

/-- A record that begins as it should is the only one, or there is an error. -/
theorem checkHost_some {check : Bytes → Verdict × Nat} {d t : Bytes}
    (h : spfRecord (dns d) = some t) (hspf : isSpfRecord t = true) :
    checkHost dns check d = check t ∨ (checkHost dns check d).1 = .permerror := by
  obtain ⟨txts, hdns, hfind⟩ := Option.bind_eq_some_iff.mp h
  have hmem : t ∈ txts.filter isSpfRecord :=
    List.mem_filter.mpr ⟨List.mem_of_find?_eq_some hfind, hspf⟩
  rw [checkHost, hdns]
  dsimp only
  match hfilter : txts.filter isSpfRecord with
  | [] =>
    rw [hfilter] at hmem
    cases hmem
  | [t'] =>
    rw [hfilter, List.mem_singleton] at hmem
    rw [hmem]
    exact Or.inl rfl
  | _ :: _ :: _ => exact Or.inr rfl

section Terms

variable {next : Bytes → Run} {check : Bytes → Verdict × Nat} {fine : Bytes → Prop}
  {F : Call → Prop}

theorem turn_included {t d : Bytes} (q : Qualifier) (hrec : spfRecord (dns d) = some t) (rest : Run) :
    turn dns address next (.included q d) rest =
      if (next t).result = .pass ∨ (next t).result = .fail then (next t).last
      else (next t).after rest := by
  rw [turn, hrec]
  dsimp only
  by_cases hpass : (next t).result = .pass
  · rw [if_pos hpass, if_pos (Or.inl hpass)]
  · by_cases hfail : (next t).result = .fail
    · rw [if_neg hpass, if_pos hfail, if_pos (Or.inr hfail)]
    · rw [if_neg hpass, if_neg hfail, if_neg (not_or.mpr ⟨hpass, hfail⟩)]

/-- The calls for an included record are among those of the turn. -/
theorem calls_subset {t d : Bytes} (q : Qualifier) (hrec : spfRecord (dns d) = some t) (rest : Run) :
    ∀ c ∈ (next t).calls, c ∈ (turn dns address next (.included q d) rest).calls := by
  rw [turn_included q hrec]
  split
  · exact fun _ hc => hc
  · exact fun _ hc => List.mem_append_left _ hc

theorem included_iff (hnext : ∀ t, (∀ c ∈ (next t).calls, F c) ↔ fine t)
    (hresult : ∀ t, fine t → (next t).result.verdict = (check t).1)
    (hspf : ∀ t, fine t → isSpfRecord t = true) {q : Qualifier} {d : Bytes} {rest : List Term}
    {redirect : Option Bytes} {run : Run}
    (ih : (run.result.verdict = (evalTerms address (checkHost dns check) redirect rest).1 ∧
        ∀ c ∈ run.calls, F c) ↔ FineTerms dns address check fine redirect rest) :
    ((turn dns address next (.included q d) run).result.verdict =
        (evalTerms address (checkHost dns check) redirect (.included q d :: rest)).1 ∧
      ∀ c ∈ (turn dns address next (.included q d) run).calls, F c) ↔
    FineTerms dns address check fine redirect (.included q d :: rest) := by
  rw [FineTerms, evalTerms]
  cases hrec : spfRecord (dns d) with
  | none =>
    refine iff_of_false (fun hl => ?_) (by rintro ⟨t, ht, -⟩; cases ht)
    have hres := hl.1
    have hcheck : (checkHost dns check d).1 = .temperror ∨ (checkHost dns check d).1 = .none :=
      checkHost_none hrec
    rcases hcheck with h | h
    · rw [h] at hres
      exact verdict_ne (Or.inl rfl) _ hres
    · rw [h] at hres
      exact verdict_ne (Or.inr (Or.inl rfl)) _ hres
  | some t =>
    by_cases hfine : fine t
    · have hrun := hresult t hfine
      have hcalls := (hnext t).mpr hfine
      have hfound : ∀ P : Prop, (∃ t', some t = some t' ∧ fine t' ∧ P) ↔ P :=
        fun P => ⟨fun ⟨_, _, _, hp⟩ => hp, fun hp => ⟨t, rfl, hfine, hp⟩⟩
      have hcheck : checkHost dns check d = check t ∨ (checkHost dns check d).1 = .permerror :=
        checkHost_some hrec (hspf t hfine)
      -- An included record that does not decide: the rest does.
      have hafter : (((next t).after run).result.verdict =
            (evalTerms address (checkHost dns check) redirect rest).1 ∧
          ∀ c ∈ ((next t).after run).calls, F c) ↔
          FineTerms dns address check fine redirect rest := by
        rw [← ih, Run.after, List.forall_mem_append, and_iff_right hcalls]
      rw [hfound, turn_included q hrec]
      rcases hcheck with h | h
      · rw [h, ← hrun]
        cases hr : (next t).result with
        | pass =>
          rw [if_pos (Or.inl rfl)]
          change ((next t).result.verdict = q.result.verdict ∧ ∀ c ∈ (next t).calls, F c) ↔ q = .plus
          rw [hr, and_iff_left hcalls]
          cases q <;> decide
        | fail =>
          rw [if_pos (Or.inr rfl)]
          change ((next t).result.verdict = _ ∧ ∀ c ∈ (next t).calls, F c) ↔ _
          rw [hr, and_iff_left hcalls]
          exact eq_comm
        | softfail => exact hafter
        | neutral => exact hafter
        | none => exact iff_of_false (fun hl => verdict_ne (Or.inr (Or.inl rfl)) _ hl.1) id
      · rw [h]
        exact iff_of_false (fun hl => verdict_ne (Or.inr (Or.inl rfl)) _ hl.1) id
    · refine iff_of_false (fun hl => hfine ?_) (by
        rintro ⟨t', ht, hf, -⟩
        cases ht
        exact hfine hf)
      exact (hnext t).mp fun c hc => hl.2 c (calls_subset q hrec run c hc)

theorem loop_iff (hnext : ∀ t, (∀ c ∈ (next t).calls, F c) ↔ fine t)
    (hresult : ∀ t, fine t → (next t).result.verdict = (check t).1)
    (hspf : ∀ t, fine t → isSpfRecord t = true) {terms : List Term} {redirect : Option Bytes}
    (hredirect : (redirects terms).head? = redirect) :
    ((loopTerms dns address next terms).result.verdict =
        (evalTerms address (checkHost dns check) redirect terms).1 ∧
      ∀ c ∈ (loopTerms dns address next terms).calls, F c) ↔
    FineTerms dns address check fine redirect terms := by
  induction terms with
  | nil =>
    cases hredirect
    exact ⟨fun _ => trivial, fun _ => ⟨rfl, nofun⟩⟩
  | cons term rest ih =>
    rw [loopTerms]
    cases term with
    | all q => exact ⟨fun _ => trivial, fun _ => ⟨rfl, nofun⟩⟩
    | ip4 q network length =>
      rw [turn, evalTerms, FineTerms]
      cases inNetwork address network length with
      | true => exact ⟨fun _ => Or.inl rfl, fun _ => ⟨rfl, nofun⟩⟩
      | false =>
        rw [or_iff_right Bool.false_ne_true]
        exact ih hredirect
    | included q d => exact included_iff hnext hresult hspf (ih hredirect)
    | redirect d =>
      rw [turn, evalTerms, FineTerms]
      cases spfRecord (dns d) with
      | none => exact ⟨fun h => h.1.symm, fun h => ⟨h.symm, nofun⟩⟩
      | some t =>
        change ((next t).result.verdict = _ ∧ ∀ c ∈ (next t).calls, F c) ↔ fine t ∧ _
        rw [hnext]
        constructor
        · rintro ⟨hres, hfine⟩
          exact ⟨hfine, hres.symm.trans (hresult t hfine)⟩
        · rintro ⟨hfine, hres⟩
          exact ⟨(hresult t hfine).trans hres.symm, hfine⟩

end Terms

variable {remoteIp : Bytes}

theorem head_call (levels : Nat) (record : Bytes) :
    ⟨levels, record, (spfEvaluate dns remoteIp levels record).result⟩ ∈
      (spfEvaluate dns remoteIp levels record).calls := by
  cases levels <;> exact List.mem_cons_self

theorem isSpfRecord_of_parse {record : Bytes} {terms : List Term}
    (h : parseRecord record = some terms) : isSpfRecord record = true := by
  rw [parseRecord] at h
  rw [isSpfRecord]
  cases hsplit : record.splitOn sp with
  | nil =>
    rw [hsplit] at h
    cases h
  | cons version rest =>
    rw [hsplit] at h
    dsimp only at h
    split at h
    · rename_i hversion
      rw [hversion]
      rfl
    · cases h

theorem checkRecord_none {record : Bytes} (h : parseRecord record = none) (fuel : Nat) :
    (checkRecord dns address (fuel + 1) record).1 = .unspecified := by
  rw [checkRecord, h]

theorem isSpfRecord_of_fine {levels : Nat} {record : Bytes} (h : Fine dns address levels record) :
    isSpfRecord record = true := by
  cases hparse : parseRecord record with
  | some terms => exact isSpfRecord_of_parse hparse
  | none =>
    cases levels with
    | zero =>
      rw [Fine, checkRecord_none hparse] at h
      cases h
    | succ levels =>
      obtain ⟨terms, hterms, -⟩ := h
      rw [hparse] at hterms
      cases hterms

/-- Every call that is made agrees with the standard if and only if the conditions hold. -/
theorem calls_faithful_iff (hip : inetPton (cString remoteIp) = some address) (levels : Nat) :
    ∀ record, (∀ c ∈ (spfEvaluate dns remoteIp levels record).calls, Faithful dns address c) ↔
      Fine dns address levels record := by
  induction levels with
  | zero =>
    intro record
    rw [spfEvaluate, List.forall_mem_singleton]
    exact eq_comm
  | succ levels ih =>
    intro record
    cases hparse : parseRecord record with
    | none =>
      refine iff_of_false (fun h => ?_) ?_
      · have hhead := h _ (head_call (levels + 1) record)
        rw [Faithful, checkRecord_none hparse] at hhead
        exact verdict_ne (Or.inr (Or.inr rfl)) _ hhead
      · rintro ⟨terms, hterms, -⟩
        rw [hparse] at hterms
        cases hterms
    | some terms =>
      have hloop : ((loopTerms dns address (spfEvaluate dns remoteIp levels) terms).result.verdict =
            (evalTerms address (checkHost dns (checkRecord dns address (levels + 1)))
              (redirects terms).head? terms).1 ∧
          ∀ c ∈ (loopTerms dns address (spfEvaluate dns remoteIp levels) terms).calls,
            Faithful dns address c) ↔
          FineTerms dns address (checkRecord dns address (levels + 1)) (Fine dns address levels)
            (redirects terms).head? terms :=
        loop_iff ih (fun t ht => (ih t).mpr ht _ (head_call levels t))
          (fun t ht => isSpfRecord_of_fine ht) rfl
      have hfine : Fine dns address (levels + 1) record ↔ (redirects terms).length ≤ 1 ∧
          FineTerms dns address (checkRecord dns address (levels + 1)) (Fine dns address levels)
            (redirects terms).head? terms := by
        rw [Fine, hparse]
        exact ⟨fun ⟨_, hterms, h⟩ => Option.some.inj hterms ▸ h, fun h => ⟨terms, rfl, h⟩⟩
      rw [spfEvaluate_succ hparse hip, hfine]
      dsimp only
      rw [List.forall_mem_cons, Faithful, checkRecord, hparse]
      dsimp only
      by_cases hone : 1 < (redirects terms).length
      · rw [if_pos hone]
        exact iff_of_false (fun h => verdict_ne (Or.inr (Or.inl rfl)) _ h.1)
          fun h => Nat.not_le.mpr hone h.1
      · rw [if_neg hone, hloop, and_iff_right (Nat.not_lt.mp hone)]

end Agreement

/-! ## The number of lookups -/

section Lookups

variable (dns : Dns) (address : BitVec 32)

/-- The lookups at the terms that the loop reaches. -/
def costTerms (check : Bytes → Verdict × Nat) (cost : Bytes → Nat) : List Term → Nat
  | [] => 0
  | .all _ :: _ => 0
  | .ip4 _ network length :: rest =>
    if inNetwork address network length then 0 else costTerms check cost rest
  | .included _ d :: rest =>
    ((spfRecord (dns d)).map cost).getD 0 + 1 +
      match (checkHost dns check d).1 with
      | .softfail | .neutral => costTerms check cost rest
      | _ => 0
  | .redirect d :: _ => ((spfRecord (dns d)).map cost).getD 0 + 1

/-- The same for a record that is evaluated with so many levels left. -/
def cost : Nat → Bytes → Nat
  | 0, _ => 0
  | levels + 1, record =>
    match parseRecord record with
    | none => 0
    | some terms =>
      costTerms dns address (checkRecord dns address (levels + 1)) (cost levels) terms

variable {dns address} {next : Bytes → Run} {check : Bytes → Verdict × Nat} {fine : Bytes → Prop}
  {cost' : Bytes → Nat} {remoteIp : Bytes}

theorem lookups_loop (hresult : ∀ t, fine t → (next t).result.verdict = (check t).1)
    (hspf : ∀ t, fine t → isSpfRecord t = true) (hcost : ∀ t, fine t → (next t).lookups = cost' t)
    {redirect : Option Bytes} {terms : List Term}
    (h : FineTerms dns address check fine redirect terms) :
    (loopTerms dns address next terms).lookups = costTerms dns address check cost' terms := by
  induction terms with
  | nil => rfl
  | cons term rest ih =>
    rw [loopTerms]
    cases term with
    | all q => rfl
    | ip4 q network length =>
      rw [FineTerms] at h
      rw [turn, costTerms]
      cases hin : inNetwork address network length with
      | true => rfl
      | false =>
        rw [hin] at h
        exact ih (h.resolve_left Bool.false_ne_true)
    | included q d =>
      obtain ⟨t, hrec, hfine, hmatch⟩ := h
      have hrun := hresult t hfine
      have hcheck : checkHost dns check d = check t ∨ (checkHost dns check d).1 = .permerror :=
        checkHost_some hrec (hspf t hfine)
      rcases hcheck with hc | hc
      · rw [hc, ← hrun] at hmatch
        rw [turn_included q hrec, costTerms, hrec, hc, ← hrun]
        have hlast : (next t).last.lookups = cost' t + 1 := congrArg (· + 1) (hcost t hfine)
        have hafter : FineTerms dns address check fine redirect rest →
            ((next t).after (loopTerms dns address next rest)).lookups =
              cost' t + 1 + costTerms dns address check cost' rest := fun hrest => by
          rw [Run.after, hcost t hfine, ih hrest]
        cases hr : (next t).result with
        | pass => exact hlast
        | fail => exact hlast
        | softfail =>
          rw [hr] at hmatch
          exact hafter hmatch
        | neutral =>
          rw [hr] at hmatch
          exact hafter hmatch
        | none =>
          rw [hr] at hmatch
          exact hmatch.elim
      · rw [hc] at hmatch
        exact hmatch.elim
    | redirect d =>
      rw [FineTerms] at h
      rw [turn, costTerms]
      cases hrec : spfRecord (dns d) with
      | none => rfl
      | some t =>
        rw [hrec] at h
        exact congrArg (· + 1) (hcost t h.1)

theorem lookups_eq (hip : inetPton (cString remoteIp) = some address) (levels : Nat) :
    ∀ record, Fine dns address levels record →
      (spfEvaluate dns remoteIp levels record).lookups = cost dns address levels record := by
  induction levels with
  | zero => exact fun _ _ => rfl
  | succ levels ih =>
    rintro record ⟨terms, hparse, -, hterms⟩
    have hloop := lookups_loop
      (fun t ht => (calls_faithful_iff hip levels t).mpr ht _ (head_call levels t))
      (fun t ht => isSpfRecord_of_fine ht) ih hterms
    rw [spfEvaluate_succ hparse hip, cost, hparse]
    exact hloop

end Lookups

/-! ## The evaluation of a record -/

/-- The evaluation gives the result of RFC 7208, as does every call in it, with at most ten
lookups. -/
structure Agrees (dns : Dns) (address : BitVec 32) (remoteIp record : Bytes) : Prop where
  result : (spfEvaluate dns remoteIp 10 record).result.verdict = rfcResult dns address record
  calls : ∀ c ∈ (spfEvaluate dns remoteIp 10 record).calls, Faithful dns address c
  lookups : (spfEvaluate dns remoteIp 10 record).lookups ≤ 10

/-- An address and a record that includes another one, which passes. -/
def exampleIp : Bytes := ascii "192.0.2.7"

def passing : Dns := fun _ => some [ascii "v=spf1 ip4:192.0.2.0/24 -all"]

end Spf

end Look
