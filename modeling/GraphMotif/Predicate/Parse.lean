import GraphMotif.Predicate.Token
import GraphMotif.Text.Blank

/-!
# Parsing predicates

A predicate is parsed token by token on a stack of groups, one for every parenthesis that is open.
A group holds what has been read of an expression: the disjunction and the conjunction so far, the
negations before the current comparison, and the left operand of that comparison. OR binds weakest,
then AND, NOT and the comparisons; a comparison cannot be an operand of another one without
parentheses.
-/

namespace GraphMotif

namespace Predicate

/-- The part of an expression that stands before the current operand. -/
structure Group where
  disjunction : Option Predicate
  conjunction : Option Predicate
  negations : Nat
  comparison : Option (Predicate × Comparison)
  deriving DecidableEq

namespace Group

/-- The group before its first token. -/
def init : Group := { disjunction := none, conjunction := none, negations := 0, comparison := none }

/-- A predicate after a number of negations. -/
def negate : Nat → Predicate → Predicate
  | 0, p => p
  | n + 1, p => .neg (negate n p)

/-- The current comparison with its last operand, or that operand alone. -/
def compared (g : Group) (operand : Predicate) : Predicate :=
  match g.comparison with
  | none => operand
  | some (left, op) => .compare op left operand

/-- The conjunction with its last member. -/
def conjoined (g : Group) (p : Predicate) : Predicate :=
  let p := negate g.negations p
  match g.conjunction with
  | none => p
  | some left => .conj left p

/-- The disjunction with its last member. -/
def disjoined (g : Group) (p : Predicate) : Predicate :=
  let p := g.conjoined p
  match g.disjunction with
  | none => p
  | some left => .disj left p

end Group

/-- Where a parser stands in the current comparison. -/
inductive Position where
  | beforeOperand
  /-- After an operand. -/
  | after (operand : Predicate)
  /-- After an operand and IS. -/
  | afterIs (operand : Predicate)
  /-- After an operand and IS NOT. -/
  | afterIsNot (operand : Predicate)
  /-- After a null test. -/
  | afterTest (p : Predicate)
  deriving DecidableEq

/-- A parser between two tokens: the current group, the groups around it from the inside out, and
the position. -/
structure Parser where
  group : Group
  outer : List Group
  position : Position
  deriving DecidableEq

namespace Parser

/-- The parser at the start of a text. -/
def init : Parser := { group := .init, outer := [], position := .beforeOperand }

/-- What the parser awaits. -/
def awaited (m : Parser) : Awaited :=
  match m.position with
  | .beforeOperand => if m.group.comparison.isSome then .comparand else .operand
  | .after _ => .connective
  | .afterIs _ => .nullTest
  | .afterIsNot _ => .null
  | .afterTest _ => .connective

/-- The comparison that has been read up to here, if it may end here. -/
def complete? (m : Parser) : Option Predicate :=
  match m.position with
  | .after operand => some (m.group.compared operand)
  | .afterTest p => some p
  | _ => none

/-- The parser after a complete comparison and one more token. -/
def connect? (m : Parser) (p : Predicate) (t : Token) : Option Parser :=
  match t, m.outer with
  | .and, outer =>
    some {
      group := { m.group with
        conjunction := some (m.group.conjoined p), negations := 0, comparison := none }
      outer, position := .beforeOperand }
  | .or, outer =>
    some {
      group := { Group.init with disjunction := some (m.group.disjoined p) }
      outer, position := .beforeOperand }
  | .closeParen, group :: outer =>
    some { group, outer, position := .after (m.group.disjoined p) }
  | _, _ => none

/-- The parser after one more token, if that token can come next. -/
def next? (m : Parser) (t : Token) : Option Parser :=
  match m.position, t with
  | .beforeOperand, .openParen =>
    some { group := .init, outer := m.group :: m.outer, position := .beforeOperand }
  | .beforeOperand, .not =>
    if m.group.comparison.isSome then none
    else some { m with group := { m.group with negations := m.group.negations + 1 } }
  | .beforeOperand, .column name => some { m with position := .after (.column name) }
  | .beforeOperand, .constant v => some { m with position := .after (.constant v) }
  | .beforeOperand, .null => some { m with position := .after (.constant .null) }
  | .after operand, .comparison op =>
    if m.group.comparison.isSome then none
    else some {
      m with group := { m.group with comparison := some (operand, op) }, position := .beforeOperand }
  | .after operand, .is =>
    if m.group.comparison.isSome then none else some { m with position := .afterIs operand }
  | .afterIs operand, .not => some { m with position := .afterIsNot operand }
  | .afterIs operand, .null => some { m with position := .afterTest (.isNull operand false) }
  | .afterIsNot operand, .null => some { m with position := .afterTest (.isNull operand true) }
  | _, t => m.complete?.bind fun p => m.connect? p t

/-- The predicate of a text that ends here. -/
def finish? (m : Parser) : Option Predicate :=
  if m.outer.isEmpty then m.complete?.map m.group.disjoined else none

/-- Parses the rest of a text. -/
def run (m : Parser) (cs : List Char) : Option Predicate :=
  let rest := skipLayout cs
  if rest.isEmpty then m.finish?
  else
    match hread : Token.read? m.awaited rest with
    | none => none
    | some (token, rest') =>
      have : rest'.length < cs.length :=
        Nat.lt_of_lt_of_le (Token.length_lt_of_read? hread) (length_skipLayout_le cs)
      match m.next? token with
      | none => none
      | some m' => run m' rest'
termination_by cs.length

end Parser

/-- Parses a predicate. -/
def parse (text : String) : Except PredicateError Predicate :=
  if (trim text.toList).isEmpty then .error (.blank text)
  else match Parser.init.run text.toList with
    | none => .error (.malformed text)
    | some p => .ok p

end Predicate

/-- What a caller hands in as a predicate. -/
inductive PredicateSource where
  | text (s : String)
  | tree (p : Predicate)
  | other (given : Datum)
  deriving DecidableEq

/-- The predicate that a caller hands in. -/
def PredicateSource.predicate : PredicateSource → Except PredicateError Predicate
  | text s => Predicate.parse s
  | tree p => .ok p
  | other given => .error (.notPredicate given)

end GraphMotif
