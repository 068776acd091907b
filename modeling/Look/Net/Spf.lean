/-
SPF: `spf_match_ip4` and `spf_evaluate`, and what RFC 7208 says about the same records.

`spf_evaluate` walks over the words of a record and calls itself for the records that it includes
or is redirected to, at most ten levels deep.  A run keeps the calls that were made and the number
of lookups.  RFC 7208 looks at the mechanisms first and at the redirect only when none of them
matches, and limits the lookups of the whole evaluation.
-/
import Mathlib.Algebra.Group.Int.Defs
import Mathlib.Algebra.Group.Nat.Defs
import Look.Net.Smtp

namespace Look

namespace Spf

open Http (Bytes sp lower isDigit decimal)
open Smtp (isSpace)

def dot : UInt8 := 46
def slash : UInt8 := 47

/-! ## Addresses -/

/-- A part of a dotted address, without leading zeros. -/
def octet (part : Bytes) : Option Nat :=
  if part ≠ [] ∧ part.all isDigit ∧ decimal part ≤ 255 ∧ (part.length = 1 ∨ part.head? ≠ some 48) then
    some (decimal part)
  else none

/-- `inet_pton` for `AF_INET`, with `ntohl` of its result. -/
def inetPton (s : Bytes) : Option (BitVec 32) :=
  match s.splitOn dot with
  | [a, b, c, d] => do
    let a ← octet a
    let b ← octet b
    let c ← octet c
    let d ← octet d
    pure (BitVec.ofNat 32 (((a * 256 + b) * 256 + c) * 256 + d))
  | _ => none

/-- `std::atoi`. -/
def atoi (s : Bytes) : Int :=
  match s.dropWhile isSpace with
  | [] => 0
  | c :: rest =>
    if c = 45 then -(decimal (rest.takeWhile isDigit) : Int)
    else if c = 43 then decimal (rest.takeWhile isDigit)
    else decimal ((c :: rest).takeWhile isDigit)

/-- What a function sees of a text that it takes as a `char *`. -/
def cString (s : Bytes) : Bytes := s.takeWhile (· ≠ 0)

/-- `spf_match_ip4`. -/
def spfMatchIp4 (mechanism remoteIp : Bytes) : Bool :=
  let cidr := mechanism.drop 4
  let (netStr, length) :=
    match breakOn [slash] cidr with
    | some (n, l) => (n, atoi (cString l))
    | none => (cidr, 32)
  if length < 0 ∨ 32 < length then false
  else
    match inetPton (cString netStr), inetPton (cString remoteIp) with
    | some n, some r =>
      if length = 0 then true
      else
        let mask : BitVec 32 :=
          if length = 32 then BitVec.allOnes 32 else BitVec.allOnes 32 <<< (32 - length.toNat)
        n &&& mask == r &&& mask
    | _, _ => false

/-! ## `spf_evaluate` -/

inductive SpfResult where
  | pass
  | softfail
  | fail
  | neutral
  | none
deriving DecidableEq

inductive Qualifier where
  | plus
  | minus
  | tilde
  | question
deriving DecidableEq

/-- `result_for`. -/
def Qualifier.result : Qualifier → SpfResult
  | .plus => .pass
  | .minus => .fail
  | .tilde => .softfail
  | .question => .neutral

/-- The qualifier of a word, and what is behind it. -/
def splitQualifier : Bytes → Qualifier × Bytes
  | [] => (.plus, [])
  | c :: mech =>
    if c = 43 then (.plus, mech)
    else if c = 45 then (.minus, mech)
    else if c = 126 then (.tilde, mech)
    else if c = 63 then (.question, mech)
    else (.plus, c :: mech)

/-- The words of a text, as `>>` reads them. -/
def words (s : Bytes) : List Bytes := (s.splitOnP isSpace).filter (· ≠ [])

def spf1 : Bytes := ascii "v=spf1"

/-- The first record with `v=spf1` in it; a lookup may fail. -/
def spfRecord (txts : Option (List Bytes)) : Option Bytes :=
  txts.bind fun txts => txts.find? fun t => (breakOn spf1 t).isSome

/-- A call of `spf_evaluate`: the levels that were left, the record and the result. -/
structure Call where
  levels : Nat
  record : Bytes
  result : SpfResult

/-- What a part of an evaluation has done. -/
structure Run where
  result : SpfResult
  lookups : Nat
  calls : List Call

/-- A lookup and what was done with its record, before the rest. -/
def Run.after (first rest : Run) : Run :=
  ⟨rest.result, first.lookups + 1 + rest.lookups, first.calls ++ rest.calls⟩

/-- The same when there is nothing more to do. -/
def Run.last (r : Run) : Run := ⟨r.result, r.lookups + 1, r.calls⟩

/-- Nothing has been done. -/
def Run.done (result : SpfResult) : Run := ⟨result, 0, []⟩

/-- `dns_txt_lookup`; nothing when it throws. -/
abbrev Dns := Bytes → Option (List Bytes)

section Evaluate

variable (dns : Dns) (remoteIp : Bytes)

/-- The loop over the words of a record; `next` is the call for a record that is looked up. -/
def spfLoop (next : Bytes → Run) : List Bytes → Run
  | [] => .done .neutral
  | token :: rest =>
    if token = spf1 then spfLoop next rest
    else
      let (qual, mech) := splitQualifier token
      let ml := lower mech
      if ml = ascii "all" then .done qual.result
      else if ml.take 4 = ascii "ip4:" then
        if spfMatchIp4 ml remoteIp then .done qual.result else spfLoop next rest
      else if ml.take 8 = ascii "include:" then
        match spfRecord (dns (mech.drop 8)) with
        | some t =>
          let inner := next t
          if inner.result = .pass then inner.last
          else if inner.result = .fail then inner.last
          else inner.after (spfLoop next rest)
        | none => (Run.done .neutral).after (spfLoop next rest)
      else if ml.take 9 = ascii "redirect=" then
        match spfRecord (dns (mech.drop 9)) with
        | some t => (next t).last
        | none => (Run.done .neutral).last
      else spfLoop next rest

/-- `spf_evaluate`, with so many levels left; `depth` is what is missing to ten. -/
def spfEvaluate : Nat → Bytes → Run
  | 0, record => ⟨.neutral, 0, [⟨0, record, .neutral⟩]⟩
  | levels + 1, record =>
    let run := spfLoop dns remoteIp (spfEvaluate levels) (words record)
    { run with calls := ⟨levels + 1, record, run.result⟩ :: run.calls }

end Evaluate

/-! ## RFC 7208 -/

/-- The results of RFC 7208.  `unspecified` is for records with terms that are not considered
here. -/
inductive Verdict where
  | none
  | neutral
  | pass
  | fail
  | softfail
  | temperror
  | permerror
  | unspecified
deriving DecidableEq

def SpfResult.verdict : SpfResult → Verdict
  | .pass => .pass
  | .softfail => .softfail
  | .fail => .fail
  | .neutral => .neutral
  | .none => .none

inductive Term where
  | all (q : Qualifier)
  | ip4 (q : Qualifier) (network : BitVec 32) (length : Nat)
  | included (q : Qualifier) (domain : Bytes)
  | redirect (domain : Bytes)

/-- `ip4-cidr-length` behind its slash. -/
def cidrLength (s : Bytes) : Option Nat :=
  if s ≠ [] ∧ s.all isDigit ∧ decimal s ≤ 32 ∧ (s.length = 1 ∨ s.head? ≠ some 48) then
    some (decimal s)
  else none

/-- `ip4-network [ ip4-cidr-length ]`. -/
def parseIp4 (s : Bytes) : Option (BitVec 32 × Nat) :=
  match breakOn [slash] s with
  | some (n, l) => do
    let n ← inetPton n
    let l ← cidrLength l
    pure (n, l)
  | none => (inetPton s).map (·, 32)

/-- A domain without macros. -/
def isDomain (d : Bytes) : Bool := !d.isEmpty && d.all (· ≠ 37)

def parseMechanism (q : Qualifier) (mech : Bytes) : Option Term :=
  if lower mech = ascii "all" then some (.all q)
  else if lower (mech.take 4) = ascii "ip4:" then
    (parseIp4 ((lower mech).drop 4)).map fun (n, l) => .ip4 q n l
  else if lower (mech.take 8) = ascii "include:" then
    if isDomain (mech.drop 8) then some (.included q (mech.drop 8)) else none
  else none

/-- `VCHAR`. -/
def isVisible (c : UInt8) : Bool := 33 ≤ c && c ≤ 126

/-- A term; a modifier has no qualifier. -/
def parseTerm (token : Bytes) : Option Term :=
  if token.all isVisible = false then none
  else if lower (token.take 9) = ascii "redirect=" then
    if isDomain (token.drop 9) then some (.redirect (token.drop 9)) else none
  else parseMechanism (splitQualifier token).1 (splitQualifier token).2

/-- The version and the terms of a record, between spaces. -/
def parseRecord (record : Bytes) : Option (List Term) :=
  match record.splitOn sp with
  | [] => none
  | version :: rest => if version = spf1 then (rest.filter (· ≠ [])).mapM parseTerm else none

/-- The record begins with a version section. -/
def isSpfRecord (t : Bytes) : Bool := (t.splitOn sp).head? = some spf1

/-- The high-order bits of the addresses are the same. -/
def inNetwork (address network : BitVec 32) (length : Nat) : Bool :=
  address.toNat / 2 ^ (32 - length) = network.toNat / 2 ^ (32 - length)

def redirects (terms : List Term) : List Bytes :=
  terms.filterMap fun
    | .redirect d => some d
    | _ => none

section Rfc

variable (dns : Dns) (address : BitVec 32)

/-- The mechanisms from left to right, then the redirect.  `check` is `check_host` for a domain,
with the number of terms in it that cause lookups. -/
def evalTerms (check : Bytes → Verdict × Nat) (redirect : Option Bytes) : List Term → Verdict × Nat
  | [] =>
    match redirect with
    | none => (.neutral, 0)
    | some d => ((if (check d).1 = .none then .permerror else (check d).1), (check d).2 + 1)
  | .all q :: _ => (q.result.verdict, 0)
  | .ip4 q network length :: rest =>
    if inNetwork address network length then (q.result.verdict, 0)
    else evalTerms check redirect rest
  | .included q d :: rest =>
    match (check d).1 with
    | .pass => (q.result.verdict, (check d).2 + 1)
    | .fail | .softfail | .neutral =>
      ((evalTerms check redirect rest).1, (check d).2 + 1 + (evalTerms check redirect rest).2)
    | .temperror => (.temperror, (check d).2 + 1)
    | .none | .permerror => (.permerror, (check d).2 + 1)
    | .unspecified => (.unspecified, (check d).2 + 1)
  | .redirect _ :: rest => evalTerms check redirect rest

/-- `check_host` from the records of the domain on. -/
def checkHost (check : Bytes → Verdict × Nat) (d : Bytes) : Verdict × Nat :=
  match dns d with
  | none => (.temperror, 0)
  | some txts =>
    match txts.filter isSpfRecord with
    | [] => (.none, 0)
    | [t] => check t
    | _ => (.permerror, 0)

/-- The evaluation of a record, as far as `fuel` levels go. -/
def checkRecord : Nat → Bytes → Verdict × Nat
  | 0, _ => (.permerror, 0)
  | fuel + 1, record =>
    match parseRecord record with
    | none => (.unspecified, 0)
    | some terms =>
      if 1 < (redirects terms).length then (.permerror, 0)
      else evalTerms address (checkHost dns (checkRecord fuel)) (redirects terms).head? terms

/-- The result for a record: at most ten terms may cause lookups.  The eleventh level is not
reached without more of them. -/
def rfcResult (record : Bytes) : Verdict :=
  if 10 < (checkRecord dns address 11 record).2 then .permerror
  else (checkRecord dns address 11 record).1

end Rfc

end Spf

end Look
