/-
The tree of operations below the root of a plan.

A plan may be any graph.  Walking it from the root, input by input, gives a tree in which each node
of the graph occurs at most once; where the walk meets a node again, or a node without an
operation, or one with the wrong number of inputs, the tree ends in the fault found there.  The
walk goes on behind a fault, and whoever reads the tree in the order of the walk meets the faults
in that order.
-/
import StreamQuery.Plan.Basic

namespace StreamQuery

/-- What is wrong with a plan. -/
inductive PlanFault where
  /-- There is no root. -/
  | noRoot
  /-- There is no table of the name that a scan reads. -/
  | noTable
  /-- A node has no operation or not as many inputs as it needs. -/
  | malformed
  /-- A node is an input twice. -/
  | shared (node : NodeId)
  /-- A row is not as wide as its schema. -/
  | rowWidth (row : Item) (schema : Schema)
  /-- The inputs of a union are not equally wide. -/
  | unionWidth (left right : Schema)
deriving Repr

/-- The text of a fault. -/
def PlanFault.message : PlanFault → String
  | .noRoot => "No root node"
  | .noTable => "Table not found"
  | .malformed => "Malformed logical plan"
  | .shared node => "node " ++ String.ofList (Text.decimal node) ++ " feeds more than one consumer"
  | .rowWidth row schema => "values row " ++ row.render ++ " does not match " ++ schema.digest
  | .unionWidth left right =>
    "union inputs " ++ left.digest ++ " and " ++ right.digest ++ " differ in width"

/-- The operations below a node. -/
inductive PlanTree where
  /-- The walk ended here. -/
  | fault (f : PlanFault)
  /-- A node with as many inputs as its operation needs. -/
  | node (id : NodeId) (op : PlanNode) (inputs : List PlanTree)
deriving Repr, Inhabited

namespace Plan

/-- The tree below a node, and the nodes visited when the walk has left it.  The way down to a node
visits no node twice, so `fuel` beyond the number of nodes is never used up: a longer way would
have come to a visited node before. -/
def walk (p : Plan) : Nat → NodeId → List NodeId → PlanTree × List NodeId
  | 0, n, visited => (.fault (.shared n), visited)
  | fuel + 1, n, visited =>
    if n ∈ visited then (.fault (.shared n), visited)
    else
      match p.node? n with
      | none => (.fault .malformed, n :: visited)
      | some op =>
        if (p.inputs n).length = op.inputCount then
          let (inputs, visited) := (p.inputs n).foldl (fun (done, visited) input =>
            let (t, visited) := walk p fuel input visited
            (done ++ [t], visited)) ([], n :: visited)
          (.node n op inputs, visited)
        else (.fault .malformed, n :: visited)

/-- The tree below the root of a plan. -/
def tree (p : Plan) : PlanTree :=
  match p.root with
  | none => .fault .noRoot
  | some root => (p.walk (p.graph.size + 1) root []).1

end Plan

end StreamQuery
