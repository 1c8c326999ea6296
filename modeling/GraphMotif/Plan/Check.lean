import GraphMotif.Plan
import GraphMotif.Resolution

/-!
# Checking plans

Every column that an operator refers to has to be among the columns of its input. The operators
are checked from the root down, the left input of an operator before the right one.
-/

namespace GraphMotif

/-- Why a resolved pattern has no plan, or a plan is not sound. -/
inductive CompileError where
  /-- A clause cannot be joined to the ones before. -/
  | unjoinable (e : BindingError)
  /-- A negated clause refers to an element that is not in the plan. -/
  | unboundNegation (clause : EdgeClause) (binding : Binding)
  /-- An element of the result is not in the plan. -/
  | unboundOutput (binding : Binding)
  /-- A pattern with clauses has led to no plan. -/
  | noRelation (pattern : String)
  /-- An operator refers to columns that its input does not produce. -/
  | missingColumns (node : Plan) (columns : List String)
  deriving DecidableEq

/-- The message of an error. -/
def CompileError.message : CompileError → String
  | unjoinable e => e.message
  | unboundNegation clause binding =>
    "Negated clause " ++ clause.toText ++ " refers to " ++ binding.label
      ++ ", which is not in the plan"
  | unboundOutput binding => "Output " ++ binding.label ++ " is not bound in the plan"
  | noRelation pattern => "Pattern " ++ quoted pattern ++ " produced no relation"
  | missingColumns node columns =>
    node.describe ++ " refers to columns " ++ quotedList columns ++ " not produced by its input"

namespace Plan

/-- The columns that an operator expects of each of its inputs, with the columns of that input. -/
def demands : Plan → List (List String × List String)
  | empty _ | scan .. => []
  | join left right equalities | antiJoin left right equalities =>
    [(equalities.map (·.left), left.columns), (equalities.map (·.right), right.columns)]
  | filter child equalities =>
    [(equalities.map (·.left) ++ equalities.map (·.right), child.columns)]
  | project child outputs => [(outputs.flatMap (·.columns), child.columns)]

/-- Checks the columns that one operator expects of one input. -/
def checkDemand (node : Plan) (wanted available : List String) : Except CompileError Unit :=
  let missing := wanted.filter fun column => !available.contains column
  if missing.isEmpty then .ok () else .error (.missingColumns node missing)

/-- Checks one operator. -/
def checkNode (node : Plan) : Except CompileError Unit :=
  node.demands.forM fun (wanted, available) => checkDemand node wanted available

/-- Checks an operator and all below it. -/
def check (root : Plan) : Except CompileError Unit := root.walk.forM checkNode

end Plan

end GraphMotif
