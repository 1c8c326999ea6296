import GraphMotif.Pattern.Written
import GraphMotif.Text.Blank

/-!
# Reading clauses

A finite machine reads a clause token by token; its state is what of the clause has been read. A
clause ends at a semicolon or at the end of the text, and layout may stand between any two tokens.
Reading stops with an offset at the first token that cannot come next, or, where the text ends too
early, at the start of its last token.
-/

namespace GraphMotif.Pattern

/-- Which way an edge clause points. -/
inductive Direction where
  | forward
  | backward
  deriving DecidableEq

/-- An edge clause up to its dash or back arrow: `(a)-` or `(a)<-`. -/
structure HalfEdge where
  direction : Direction
  negated : Bool
  first : Slot
  deriving DecidableEq

/-- The clause that a half edge becomes. -/
def HalfEdge.complete (h : HalfEdge) (edge second : Slot) : Written :=
  match h.direction with
  | .forward => .forward h.negated h.first edge second
  | .backward => .backward h.negated h.first edge second

/-- What has been read of a clause. -/
inductive Progress where
  | nothing
  | bang
  /-- `(` -/
  | firstOpened (negated : Bool)
  /-- `(a` -/
  | firstNamed (negated : Bool) (name : String)
  /-- `(a)` -/
  | first (negated : Bool) (slot : Slot)
  /-- `(a)-` -/
  | half (h : HalfEdge)
  /-- `(a)-[` -/
  | edgeOpened (h : HalfEdge)
  /-- `(a)-[e` -/
  | edgeNamed (h : HalfEdge) (name : String)
  /-- `(a)-[e]` -/
  | edge (h : HalfEdge) (slot : Slot)
  /-- `(a)-[e]->` -/
  | pointed (h : HalfEdge) (edge : Slot)
  /-- `(a)-[e]->(` -/
  | secondOpened (h : HalfEdge) (edge : Slot)
  /-- `(a)-[e]->(b` -/
  | secondNamed (h : HalfEdge) (edge : Slot) (name : String)
  /-- `(a)-[e]->(b)` -/
  | whole (w : Written)
  deriving DecidableEq

namespace Progress

/-- The progress after one more token of the clause, if that token can come next. -/
def next? : Progress → Token → Option Progress
  | nothing, .bang => some bang
  | nothing, .openParen => some (firstOpened false)
  | bang, .openParen => some (firstOpened true)
  | firstOpened n, .name cs => some (firstNamed n (String.ofList cs))
  | firstOpened n, .closeParen => some (first n none)
  | firstNamed n a, .closeParen => some (first n (some a))
  | first n a, .dash => some (half ⟨.forward, n, a⟩)
  | first n a, .backArrow => some (half ⟨.backward, n, a⟩)
  | half h, .openBracket => some (edgeOpened h)
  | edgeOpened h, .name cs => some (edgeNamed h (String.ofList cs))
  | edgeOpened h, .closeBracket => some (edge h none)
  | edgeNamed h e, .closeBracket => some (edge h (some e))
  | edge ⟨.forward, n, a⟩ e, .arrow => some (pointed ⟨.forward, n, a⟩ e)
  | edge ⟨.backward, n, a⟩ e, .dash => some (pointed ⟨.backward, n, a⟩ e)
  | pointed h e, .openParen => some (secondOpened h e)
  | secondOpened h e, .name cs => some (secondNamed h e (String.ofList cs))
  | secondOpened h e, .closeParen => some (whole (h.complete e none))
  | secondNamed h e b, .closeParen => some (whole (h.complete e (some b)))
  | _, _ => none

/-- The clause that has been read, where it may end. -/
def clause? : Progress → Option Written
  | first n a => some (.vertex n a)
  | whole w => some w
  | _ => none

/-- Whether the arrow `->` comes next. -/
def arrowAwaited : Progress → Bool
  | edge ⟨.forward, _, _⟩ _ => true
  | _ => false

end Progress

/-- A clause and the offset of its first token. -/
structure Placed where
  offset : Nat
  written : Written
  deriving DecidableEq

/-- A reader between two tokens: the clauses read, the progress within the next clause and that
clause's offset, and the offset of the last token. -/
structure Reader where
  clauses : List Placed
  progress : Progress
  clauseOffset : Nat
  tokenOffset : Nat
  deriving DecidableEq

namespace Reader

/-- The reader at the start of a text. -/
def init : Reader := { clauses := [], progress := .nothing, clauseOffset := 0, tokenOffset := 0 }

/-- The reader after one more token at an offset, if that token can come next. -/
def next? (r : Reader) (offset : Nat) (t : Token) : Option Reader :=
  match t, r.progress.clause? with
  | .semicolon, some w =>
    some { clauses := r.clauses ++ [⟨r.clauseOffset, w⟩], progress := .nothing,
           clauseOffset := offset, tokenOffset := offset }
  | _, _ =>
    (r.progress.next? t).map fun progress =>
      { r with
        progress
        clauseOffset := if r.progress = .nothing then offset else r.clauseOffset
        tokenOffset := offset }

/-- The clauses of a text that ends here: none at all, or the last one is complete. -/
def finish? (r : Reader) : Option (List Placed) :=
  match r.progress.clause? with
  | some w => some (r.clauses ++ [⟨r.clauseOffset, w⟩])
  | none => if r.progress = .nothing ∧ r.clauses = [] then some [] else none

/-- Reads the rest `cs` of a text of `size` characters; an error is an offset. -/
def run (size : Nat) (r : Reader) (cs : List Char) : Except Nat (List Placed) :=
  let rest := skipLayout cs
  let offset := size - rest.length
  if rest.isEmpty then
    match r.finish? with
    | some clauses => .ok clauses
    | none => .error r.tokenOffset
  else
    match hread : Token.read? r.progress.arrowAwaited rest with
    | none => .error offset
    | some (token, rest') =>
      have : rest'.length < cs.length :=
        Nat.lt_of_lt_of_le (Token.length_lt_of_read? hread) (length_skipLayout_le cs)
      match r.next? offset token with
      | none => .error offset
      | some r' => run size r' rest'
termination_by cs.length

end Reader

/-- The clauses written in a text, each with its offset; an error is the offset at which the text
goes wrong. -/
def readClauses (cs : List Char) : Except Nat (List Placed) := Reader.init.run cs.length cs

end GraphMotif.Pattern
