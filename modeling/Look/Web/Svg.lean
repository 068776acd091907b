/-
The sanitizer of SVG uploads: `svg_sanitize`.

The end of a tag is the next `>`, whatever the quotes around it.  Kept attributes are written again
in double quotes, as they are: a value that had other quotes may end early for the next reader, and
one with character references is only checked in its raw form.
-/
import Mathlib
import Look.Lib.Find
import Look.Web.Markup

namespace Look

namespace Svg

open Http (Bytes)
open Markup (lt gt slash equals doubleQuote singleQuote bang Tag)

local instance : LawfulBEq Bytes := inferInstance

/-! ## The sanitizer -/

/-- `isspace`. -/
def isSpace (c : UInt8) : Bool := c = 32 || (9 ≤ c && c ≤ 13)

def lower (s : Bytes) : Bytes := s.map Http.toLower

/-- `SVG_SAFE_ELEMENTS`. -/
def svgSafeElements : List Bytes :=
  ["svg", "g", "path", "circle", "rect", "ellipse", "line", "polyline", "polygon", "text", "tspan",
    "defs", "symbol", "title", "desc", "lineargradient", "radialgradient", "stop", "clippath",
    "mask", "pattern", "use"].map ascii

/-- `svg_attr_lower`. -/
def svgAttrLower (s : Bytes) : Bytes := lower (s.filter fun c => !isSpace c)

def contains (pat s : Bytes) : Bool := (breakOn pat s).isSome

/-- `svg_value_dangerous`. -/
def svgValueDangerous (raw : Bytes) : Bool :=
  let v := svgAttrLower raw
  contains (ascii "javascript:") v || contains (ascii "vbscript:") v || contains (ascii "data:") v ||
    contains (ascii "expression(") v ||
      ([ascii "javascript:", ascii "data:", ascii "vbscript:"].any fun scheme =>
        contains (ascii "url(" ++ scheme) v || contains (ascii "url('" ++ scheme) v ||
          contains (ascii "url(" ++ doubleQuote :: scheme) v)

/-- The value behind an `=`, and what stands behind it. -/
def readValue : Bytes → Bytes × Bytes
  | [] => ([], [])
  | q :: s =>
    if q = doubleQuote ∨ q = singleQuote then
      (s.takeWhile (· ≠ q), (s.dropWhile (· ≠ q)).drop 1)
    else
      ((q :: s).takeWhile fun c => !isSpace c && c ≠ gt,
        (q :: s).dropWhile fun c => !isSpace c && c ≠ gt)

def isNameChar (c : UInt8) : Bool := c ≠ equals && !isSpace c && c ≠ slash && c ≠ gt

/-- An attribute, and what stands behind it. -/
def readAttr (s : Bytes) : (Bytes × Bytes) × Bytes :=
  match s.dropWhile isNameChar with
  | [] => ((s.takeWhile isNameChar, []), [])
  | c :: rest =>
    if c = equals then ((s.takeWhile isNameChar, (readValue rest).1), (readValue rest).2)
    else ((s.takeWhile isNameChar, []), c :: rest)

/-- The attributes of a tag, for so many turns. -/
def readAttrs : Nat → Bytes → List (Bytes × Bytes)
  | 0, _ => []
  | turns + 1, s =>
    match s.dropWhile isSpace with
    | [] => []
    | c :: s =>
      if c = slash ∨ c = gt then []
      else (readAttr (c :: s)).1 :: readAttrs turns (readAttr (c :: s)).2

/-- The attribute is kept. -/
def keeps (isUse : Bool) (a : Bytes × Bytes) : Bool :=
  !(ascii "on").isPrefixOf (lower a.1) && !svgValueDangerous a.2 &&
    !(isUse && (lower a.1 = ascii "href" || lower a.1 = ascii "xlink:href") &&
      a.2.head? ≠ some 35)

/-- A piece of the output. -/
inductive Piece where
  | byte (c : UInt8)
  | tag (closing : Bool) (name : Bytes) (attrs : List (Bytes × Bytes)) (slashed : Bool)
deriving DecidableEq

def attrText (a : Bytes × Bytes) : Bytes :=
  32 :: (a.1 ++ equals :: doubleQuote :: (a.2 ++ [doubleQuote]))

/-- What stands between the brackets of a tag. -/
def tagText (closing : Bool) (name : Bytes) (attrs : List (Bytes × Bytes)) (slashed : Bool) : Bytes :=
  (if closing then [slash] else []) ++
    (name ++ (attrs.flatMap attrText ++ if slashed then [slash] else []))

def Piece.text : Piece → Bytes
  | .byte c => [c]
  | .tag closing name attrs slashed => lt :: (tagText closing name attrs slashed ++ [gt])

def isElemChar (c : UInt8) : Bool := !isSpace c && c ≠ slash && c ≠ gt

def isClosing (tag : Bytes) : Bool := tag.head? = some slash

def tagBody (tag : Bytes) : Bytes := if isClosing tag then tag.drop 1 else tag

/-- `elem_raw`. -/
def elemRaw (tag : Bytes) : Bytes := (tagBody tag).takeWhile isElemChar

/-- The tag of a safe element, written again. -/
def keptTag (tag : Bytes) : Piece :=
  let attrs := (tagBody tag).dropWhile isElemChar
  .tag (isClosing tag) (elemRaw tag)
    ((readAttrs attrs.length attrs).filter (keeps (lower (elemRaw tag) = ascii "use")))
    (tag.getLast? = some slash)

/-- What is left behind an element that is dropped. -/
def skipElement (tag rest : Bytes) : Bytes :=
  if !isClosing tag && tag.getLast? ≠ some slash then
    match breakOn (lt :: slash :: elemRaw tag) rest with
    | none => rest
    | some (_, behind) =>
      match breakOn [gt] behind with
      | none => []
      | some (_, rest) => rest
  else rest

/-- The loop, for so many turns. -/
def svgPieces : Nat → Bytes → List Piece
  | 0, _ => []
  | _ + 1, [] => []
  | turns + 1, c :: s =>
    if c ≠ lt then .byte c :: svgPieces turns s
    else
      match breakOn [gt] s with
      | none => .byte c :: svgPieces turns s
      | some (tag, rest) =>
        if tag = [] ∨ tag.head? = some bang then svgPieces turns rest
        else if lower (elemRaw tag) ∈ svgSafeElements then keptTag tag :: svgPieces turns rest
        else svgPieces turns (skipElement tag rest)

def render (pieces : List Piece) : Bytes := pieces.flatMap Piece.text

/-- `svg_sanitize`. -/
def svgSanitize (input : Bytes) : Bytes := render (svgPieces input.length input)

end Svg

end Look
