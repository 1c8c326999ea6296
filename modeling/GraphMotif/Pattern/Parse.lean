import GraphMotif.Pattern.Reader
import GraphMotif.Value.Text

/-!
# Parsing patterns

A text is parsed by reading its clauses and then refusing the first one that is written backwards
or is a negated vertex. An error in the writing of any clause comes first. An error knows the text,
the offending fragment and its position.
-/

namespace GraphMotif

/-- Why something is not a pattern. -/
inductive ParseError where
  /-- Something other than a text was given. -/
  | notText (given : Datum)
  /-- The text goes wrong at a position. -/
  | malformed (pattern : String) (position : Nat)
  /-- A clause, at a position, is written backwards or is a negated vertex. -/
  | refused (pattern : String) (position : Nat) (written : Pattern.Written)
  deriving DecidableEq

namespace ParseError

/-- The part of a text between the separators around a position, without white space at its ends;
if that is empty, together with the separator after it; if that is empty too, the whole text. -/
def enclosingClause (cs : List Char) (position : Nat) : List Char :=
  let before := ((cs.take position).reverse.takeWhile (· != ';')).reverse
  let after := (cs.drop position).takeWhile (· != ';')
  let separator := ((cs.drop position).drop after.length).take 1
  let clause := trim (before ++ after)
  let withSeparator := trim (before ++ after ++ separator)
  if !clause.isEmpty then clause
  else if !withSeparator.isEmpty then withSeparator
  else trim cs

/-- The message, without the offending fragment. -/
def reason : ParseError → String
  | notText given => "Pattern must be a string, not " ++ given.typeName
  | malformed .. => "Malformed pattern clause"
  | refused _ _ (.backward negated dst edge src) =>
    "Edge direction is reversed; write the edge as "
      ++ EdgeClause.toText { src, edge, dst, negated }
  | refused .. => "Negation is only allowed on edge clauses"

/-- The text that was given. -/
def pattern : ParseError → String
  | notText _ => ""
  | malformed pattern _ => pattern
  | refused pattern _ _ => pattern

/-- The offending fragment. -/
def fragment : ParseError → String
  | notText _ => ""
  | malformed pattern position => String.ofList (enclosingClause pattern.toList position)
  | refused _ _ written => written.toText

/-- The position of the error in the text. -/
def position? : ParseError → Option Nat
  | notText _ => none
  | malformed _ position => some position
  | refused _ position _ => some position

/-- The reason, followed by the fragment unless that is empty. -/
def message (e : ParseError) : String :=
  if e.fragment = "" then e.reason else e.reason ++ ": " ++ quoted e.fragment

end ParseError

namespace Pattern

/-- The clauses of a pattern, or the first one that a pattern may not hold. -/
def check (text : String) : List Placed → Except ParseError (List Clause)
  | [] => .ok []
  | ⟨offset, written⟩ :: rest =>
    match written.clause? with
    | none => .error (.refused text offset written)
    | some clause => (check text rest).map (clause :: ·)

/-- Parses a pattern. -/
def parse (text : String) : Except ParseError Pattern :=
  match readClauses text.toList with
  | .error position => .error (.malformed text position)
  | .ok placed => (check text placed).map Pattern.mk

/-- Whether a text is a pattern. -/
def isValid (text : String) : Bool := (parse text).isOk

end Pattern

/-- What a caller hands in as a pattern. -/
inductive PatternSource where
  | text (s : String)
  | pattern (p : Pattern)
  | other (given : Datum)
  deriving DecidableEq

/-- The pattern that a caller hands in. -/
def PatternSource.parse : PatternSource → Except ParseError Pattern
  | text s => Pattern.parse s
  | pattern p => .ok p
  | other given => .error (.notText given)

end GraphMotif
