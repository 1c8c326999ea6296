import GraphMotif.Element
import GraphMotif.Pattern
import GraphMotif.Text.Quoted

/-!
# Resolving the names of a pattern

Every slot of a pattern denotes a pattern element, its binding. Slots that carry one name share one
binding, and every slot left empty has a binding of its own. Bindings are numbered in the order in
which the slots of the clauses, an edge's source first and its destination last, introduce them;
the number alone makes the binding's column, so no name can clash with it. A negated clause may use
names but not introduce any.
-/

namespace GraphMotif

/-- An element of a pattern. -/
structure Binding where
  kind : Element
  /-- The tag under which the element's relation is scanned. -/
  column : String
  name : Slot
  /-- The number of bindings introduced before. -/
  rank : Nat
  deriving DecidableEq

namespace Binding

/-- Named bindings are shown in the result. -/
def visible (b : Binding) : Bool := b.name.isSome

/-- What messages call a binding. -/
def label (b : Binding) : String := b.name.getD ("<anonymous " ++ b.kind.toText ++ ">")

/-- What the result calls a binding. -/
def outputName (b : Binding) : String := b.name.getD "None"

end Binding

/-- A clause with the bindings of its slots. -/
inductive ResolvedClause where
  | vertex (name : Slot) (vertex : Binding)
  | edge (clause : EdgeClause) (src edge dst : Binding)
  deriving DecidableEq

namespace ResolvedClause

/-- The clause without the bindings. -/
def clause : ResolvedClause → Clause
  | vertex name _ => .vertex name
  | edge e .. => .edge e

/-- Whether the clause is negated. -/
def negated (c : ResolvedClause) : Bool := c.clause.negated

end ResolvedClause

/-- A pattern with its bindings, and those of them that make up the result. -/
structure Resolution where
  pattern : Pattern
  clauses : List ResolvedClause
  bindings : List Binding
  outputs : List Binding
  deriving DecidableEq

/-- Why the names of a pattern cannot be resolved or its clauses not be joined. -/
inductive BindingError where
  /-- A clause uses a name for another kind of element than an earlier slot. -/
  | kindConflict (name : String) (bound wanted : Element) (clause : Clause)
  /-- A negated clause introduces a name. -/
  | unboundInNegation (name : String) (clause : Clause)
  /-- All clauses are negated. -/
  | noPositiveClause (pattern : Pattern)
  /-- A negated clause comes before every positive one. -/
  | negationFirst (clause : EdgeClause)
  deriving DecidableEq

namespace BindingError

/-- The text of the offending clause. -/
def clause : BindingError → String
  | kindConflict _ _ _ clause => clause.toText
  | unboundInNegation _ clause => clause.toText
  | noPositiveClause pattern => pattern.toText
  | negationFirst clause => clause.toText

/-- What is wrong with the clause. -/
def reason : BindingError → String
  | kindConflict name bound wanted _ =>
    "Name " ++ quoted name ++ " is bound to " ++ bound.withArticle
      ++ " and cannot be reused as " ++ wanted.withArticle
  | unboundInNegation name _ => "Negation refers to unbound name " ++ quoted name
  | noPositiveClause _ => "Pattern has no positive clause to anchor its negated clauses"
  | negationFirst _ => "Negated clause has no positive clause before it to constrain"

/-- The message of an error. -/
def message (e : BindingError) : String := e.reason ++ " in clause " ++ quoted e.clause

end BindingError

/-- The binding of a name among those introduced so far. -/
def Binding.find? (bindings : List Binding) (name : String) : Option Binding :=
  bindings.find? (·.name = some name)

/-- The binding that the next slot introduces. -/
def Binding.fresh (bindings : List Binding) (kind : Element) (name : Slot) : Binding where
  kind := kind
  column := kind.letter ++ toString bindings.length
  name := name
  rank := bindings.length

namespace Resolution

/-- The binding of a slot, and all bindings introduced up to it. -/
def bind (bindings : List Binding) (clause : Clause) (kind : Element) (slot : Slot) :
    Except BindingError (Binding × List Binding) :=
  let fresh := Binding.fresh bindings kind slot
  match slot with
  | none => .ok (fresh, bindings ++ [fresh])
  | some name =>
    match Binding.find? bindings name with
    | some bound =>
      if bound.kind = kind then .ok (bound, bindings)
      else .error (.kindConflict name bound.kind kind clause)
    | none =>
      if clause.negated then .error (.unboundInNegation name clause)
      else .ok (fresh, bindings ++ [fresh])

/-- Resolves one clause after the bindings introduced so far. -/
def resolveClause (bindings : List Binding) (clause : Clause) :
    Except BindingError (ResolvedClause × List Binding) :=
  match clause with
  | .vertex name => do
    let (vertex, bindings) ← bind bindings clause .vertex name
    return (.vertex name vertex, bindings)
  | .edge e => do
    let (src, bindings) ← bind bindings clause .vertex e.src
    let (edge, bindings) ← bind bindings clause .edge e.edge
    let (dst, bindings) ← bind bindings clause .vertex e.dst
    return (.edge e src edge dst, bindings)

/-- Resolves clauses from left to right after the bindings introduced so far. -/
def resolveClauses (bindings : List Binding) :
    List Clause → Except BindingError (List ResolvedClause × List Binding)
  | [] => .ok ([], bindings)
  | clause :: clauses => do
    let (resolved, bindings) ← resolveClause bindings clause
    let (rest, bindings) ← resolveClauses bindings clauses
    return (resolved :: rest, bindings)

/-- The names of the result, in order. -/
def outputNames (r : Resolution) : List String := r.outputs.map Binding.outputName

/-- The binding of a name of the pattern. -/
def binding? (r : Resolution) (name : String) : Option Binding := Binding.find? r.bindings name

end Resolution

/-- Resolves the names of a pattern. -/
def Pattern.resolve (p : Pattern) : Except BindingError Resolution := do
  let (clauses, bindings) ← Resolution.resolveClauses [] p.clauses
  if !clauses.isEmpty && clauses.all ResolvedClause.negated then
    throw (.noPositiveClause p)
  return { pattern := p, clauses, bindings, outputs := bindings.filter Binding.visible }

end GraphMotif
