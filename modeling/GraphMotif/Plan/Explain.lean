import GraphMotif.Plan
import GraphMotif.Text.Quoted
import GraphMotif.Text.Wrap

/-!
# Explaining plans

A plan is shown as a tree: the pattern, and below it every operator with its inputs. Each level is
indented by four cells, and the labels are wrapped to what is left of the page.
-/

namespace GraphMotif

/-- The cells of a line of the page. -/
def pageWidth : Nat := 120

/-- The lines of a label at a depth of the tree. -/
def labelLines (depth : Nat) (label : String) : List String :=
  (wrap (pageWidth - 4 * depth) label.toList).map String.ofList

/-- The first line after one guide, and the others after another. -/
def guided (firstGuide otherGuide : String) : List String → List String
  | [] => []
  | line :: lines => (firstGuide ++ line) :: lines.map (otherGuide ++ ·)

/-- The guide before the first line of a node. -/
def branchGuide (last : Bool) : String := if last then "└── " else "├── "

/-- The guide before the other lines of a node and before all lines below it. -/
def trunkGuide (last : Bool) : String := if last then "    " else "│   "

namespace Plan

/-- The lines of an operator and all below it. `guides` stands before the operator's own guide, and
`last` says whether it is the last input of its parent. -/
def treeLines (depth : Nat) (guides : String) (last : Bool) (node : Plan) : List String :=
  let own := guided (guides ++ branchGuide last) (guides ++ trunkGuide last)
    (labelLines depth node.describe)
  let below := guides ++ trunkGuide last
  match node with
  | empty _ | scan .. => own
  | join left right _ | antiJoin left right _ =>
    own ++ left.treeLines (depth + 1) below false ++ right.treeLines (depth + 1) below true
  | filter child _ | project child _ => own ++ child.treeLines (depth + 1) below true

end Plan

namespace MatchPlan

/-- The lines of the tree of a plan. -/
def treeLines (p : MatchPlan) : List String :=
  labelLines 0 ("Pattern " ++ quoted p.pattern) ++ p.root.treeLines 1 "" true

/-- The tree of a plan, every line ended by a line feed. -/
def explain (p : MatchPlan) : String := String.join (p.treeLines.map (· ++ "\n"))

end MatchPlan

end GraphMotif
