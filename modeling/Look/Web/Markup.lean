/-
Tags and attributes as HTML reads them.

The states are those of its tokenizer, for a text whose elements have no rules of their own for their
content.  A tag counts when its `>` has come.  Attribute values have character references, and the
table of the named ones is a parameter.
-/
import Look.Web.Routes

namespace Look

namespace Markup

open Http (Bytes toLower)
open Route (hexValue)

def lt : UInt8 := 60
def gt : UInt8 := 62
def slash : UInt8 := 47
def equals : UInt8 := 61
def doubleQuote : UInt8 := 34
def singleQuote : UInt8 := 39
def bang : UInt8 := 33
def dash : UInt8 := 45

def isSpace (c : UInt8) : Bool := c = 32 || c = 9 || c = 10 || c = 12 || c = 13

def isLetter (c : UInt8) : Bool := 65 ≤ c && c ≤ 90 || 97 ≤ c && c ≤ 122

/-- A start tag or an end tag. -/
structure Tag where
  closing : Bool
  name : Bytes
  attrs : List (Bytes × Bytes)
deriving DecidableEq

def Tag.push (t : Tag) (name value : Bytes) : Tag := { t with attrs := t.attrs ++ [(name, value)] }

inductive State where
  | data
  | tagOpen
  | endTagOpen
  | tagName (t : Tag)
  | beforeAttr (t : Tag)
  | attrName (t : Tag) (name : Bytes)
  | afterName (t : Tag) (name : Bytes)
  | beforeValue (t : Tag) (name : Bytes)
  | quoted (q : UInt8) (t : Tag) (name value : Bytes)
  | unquoted (t : Tag) (name value : Bytes)
  /-- Behind a `<!`, and behind a `-` that follows it. -/
  | markup
  | markupDash
  /-- In a comment, with whether it has only dashes, and how many stand before. -/
  | comment (start : Bool) (dashes : Nat)
  | commentBang
  | bogus

def dataStep (c : UInt8) : State := if c = lt then .tagOpen else .data

/-- Between attributes.  A slash changes nothing for what comes next. -/
def attrStep (t : Tag) (c : UInt8) : State × List Tag :=
  if isSpace c ∨ c = slash then (.beforeAttr t, [])
  else if c = gt then (.data, [t])
  else (.attrName t [toLower c], [])

def State.step : State → UInt8 → State × List Tag
  | .data, c => (dataStep c, [])
  | .tagOpen, c =>
    if c = bang then (.markup, [])
    else if c = slash then (.endTagOpen, [])
    else if isLetter c then (.tagName ⟨false, [toLower c], []⟩, [])
    else if c = 63 then (.bogus, [])
    else (dataStep c, [])
  | .endTagOpen, c =>
    if isLetter c then (.tagName ⟨true, [toLower c], []⟩, [])
    else if c = gt then (.data, [])
    else (.bogus, [])
  | .tagName t, c =>
    if isSpace c ∨ c = slash then (.beforeAttr t, [])
    else if c = gt then (.data, [t])
    else (.tagName { t with name := t.name ++ [toLower c] }, [])
  | .beforeAttr t, c => attrStep t c
  | .attrName t name, c =>
    if isSpace c then (.afterName t name, [])
    else if c = slash then (.beforeAttr (t.push name []), [])
    else if c = gt then (.data, [t.push name []])
    else if c = equals then (.beforeValue t name, [])
    else (.attrName t (name ++ [toLower c]), [])
  | .afterName t name, c =>
    if isSpace c then (.afterName t name, [])
    else if c = slash then (.beforeAttr (t.push name []), [])
    else if c = gt then (.data, [t.push name []])
    else if c = equals then (.beforeValue t name, [])
    else (.attrName (t.push name []) [toLower c], [])
  | .beforeValue t name, c =>
    if isSpace c then (.beforeValue t name, [])
    else if c = doubleQuote ∨ c = singleQuote then (.quoted c t name [], [])
    else if c = gt then (.data, [t.push name []])
    else (.unquoted t name [c], [])
  | .quoted q t name value, c =>
    if c = q then (.beforeAttr (t.push name value), []) else (.quoted q t name (value ++ [c]), [])
  | .unquoted t name value, c =>
    if isSpace c then (.beforeAttr (t.push name value), [])
    else if c = gt then (.data, [t.push name value])
    else (.unquoted t name (value ++ [c]), [])
  | .markup, c => if c = dash then (.markupDash, []) else if c = gt then (.data, []) else (.bogus, [])
  | .markupDash, c =>
    if c = dash then (.comment true 0, []) else if c = gt then (.data, []) else (.bogus, [])
  | .comment start dashes, c =>
    if c = dash then (.comment start (dashes + 1), [])
    else if c = gt ∧ (start ∨ 2 ≤ dashes) then (.data, [])
    else if c = bang ∧ 2 ≤ dashes then (.commentBang, [])
    else (.comment false 0, [])
  | .commentBang, c =>
    if c = dash then (.comment false 1, [])
    else if c = gt then (.data, [])
    else (.comment false 0, [])
  | .bogus, c => if c = gt then (.data, []) else (.bogus, [])

def tagsFrom : State → Bytes → List Tag
  | _, [] => []
  | st, c :: s => (st.step c).2 ++ tagsFrom (st.step c).1 s

/-- The tags of a text. -/
def tags (s : Bytes) : List Tag := tagsFrom .data s

/-! ## Character references -/

def isDigit (c : UInt8) : Bool := 48 ≤ c && c ≤ 57

/-- The digits of a number, with the semicolon behind them. -/
def numeric (base : Nat) (digit : UInt8 → Option Nat) (s : Bytes) : Option (List Nat × Nat) :=
  let digits := s.takeWhile fun c => (digit c).isSome
  if digits = [] then none
  else some ([(digits.filterMap digit).foldl (fun n d => base * n + d) 0],
    digits.length + if (s.drop digits.length).head? = some 59 then 1 else 0)

variable (named : Bytes → Option (List Nat × Nat))

/-- What a reference stands for, and its length behind the `&`. -/
def reference : Bytes → Option (List Nat × Nat)
  | 35 :: x :: s =>
    if x = 120 ∨ x = 88 then
      (numeric 16 (fun c => (hexValue c).map UInt8.toNat) s).map fun (cs, n) => (cs, n + 2)
    else
      (numeric 10 (fun c => if isDigit c then some (c.toNat - 48) else none) (x :: s)).map
        fun (cs, n) => (cs, n + 1)
  | s => named s

/-- The characters of a value, when so many bytes are part of a reference already. -/
def decodeFrom : Nat → Bytes → List Nat
  | _, [] => []
  | skip + 1, _ :: s => decodeFrom skip s
  | 0, c :: s =>
    if c = 38 then
      match reference named s with
      | some (cs, n) => cs ++ decodeFrom n s
      | none => c.toNat :: decodeFrom 0 s
    else c.toNat :: decodeFrom 0 s

/-- The characters of an attribute value. -/
def decode (value : Bytes) : List Nat := decodeFrom named 0 value

/-! ## What is read -/

theorem tagsFrom_cons (st : State) (c : UInt8) (s : Bytes) :
    tagsFrom st (c :: s) = (st.step c).2 ++ tagsFrom (st.step c).1 s := rfl

/-- A text without `<` has no tags. -/
theorem tagsFrom_text {x : Bytes} (h : lt ∉ x) (s : Bytes) :
    tagsFrom .data (x ++ s) = tagsFrom .data s := by
  induction x with
  | nil => rfl
  | cons c x ih =>
    rw [List.mem_cons, not_or] at h
    rw [List.cons_append, tagsFrom_cons, State.step, dataStep, if_neg (Ne.symm h.1), ih h.2]
    rfl

theorem attrStep_gt {t : Tag} {c : UInt8} (hc : c ≠ gt) : (attrStep t c).2 = [] := by
  rw [attrStep]
  split <;> rfl

/-- A tag is emitted with its `>`. -/
theorem step_emits {st : State} {c : UInt8} (hc : c ≠ gt) : (st.step c).2 = [] := by
  cases st with
  | data => rfl
  | beforeAttr t => exact attrStep_gt hc
  | quoted | comment | commentBang | bogus | tagOpen | endTagOpen | tagName | attrName | afterName
  | beforeValue | unquoted | markup | markupDash =>
    rw [State.step]
    repeat' split
    all_goals rfl

/-- A text without `>` has no tags that end. -/
theorem tagsFrom_open {st : State} {s : Bytes} (h : gt ∉ s) : tagsFrom st s = [] := by
  induction s generalizing st with
  | nil => rfl
  | cons c s ih =>
    rw [List.mem_cons, not_or] at h
    rw [tagsFrom_cons, step_emits (Ne.symm h.1), ih h.2]
    rfl

end Markup

end Look
