/-
Query plans.

A plan is a graph of relational operations.  An edge leads from an operation to one that feeds it,
and the edges out of a node are its inputs in order.  The root is the operation whose rows are the
answer: the first node until an edge is added to it, then the node that the edge comes from.
-/
import StreamQuery.Expr.Basic
import StreamQuery.Graph
import StreamQuery.Row

namespace StreamQuery

/-- A relational operation. -/
inductive PlanNode where
  /-- The rows of a table of the catalog. -/
  | scan (table : String)
  /-- Rows that the plan holds itself. -/
  | values (schema : Schema) (rows : List Item)
  /-- The input rows on which the condition is true. -/
  | filter (condition : Expr)
  /-- One field for each expression; the fields in front may have names. -/
  | project (exprs : List Expr) (names : List String)
  /-- Pairs of a left and a right row on which the condition is true. -/
  | join (condition : Expr)
  /-- The rows of the first input, then those of the second. -/
  | union
deriving Repr, Inhabited

namespace PlanNode

/-- How many inputs an operation has. -/
def inputCount : PlanNode → Nat
  | .scan _ | .values _ _ => 0
  | .filter _ | .project _ _ => 1
  | .join _ | .union => 2

/-- The name of the field at a position among given names. -/
def fieldName (names : List String) (i : Nat) : String :=
  names[i]?.getD (anonymousName i)

/-- The text of an operation. -/
def render : PlanNode → String
  | .scan table => "Scan(" ++ table ++ ")"
  | .values _ rows => "Values(" ++ String.ofList (Text.decimal rows.length) ++ " rows)"
  | .filter condition => "Filter(" ++ condition.render ++ ")"
  | .project exprs _ => "Project(" ++ ", ".intercalate (Expr.renderAll exprs) ++ ")"
  | .join condition => "Join(" ++ condition.render ++ ")"
  | .union => "Union"

/-- No row that an operation holds is a closing mark. -/
def RowsOnly : PlanNode → Prop
  | .values _ rows => .endOfStream ∉ rows
  | _ => True

end PlanNode

/-- A query plan. -/
structure Plan where
  graph : Graph PlanNode
  root : Option NodeId
deriving Repr

namespace Plan

/-- The plan without operations. -/
def empty : Plan := ⟨.empty, none⟩

/-- Adds an operation behind all others. -/
def addNode (p : Plan) (node : PlanNode) : Plan :=
  { graph := p.graph.addNode node, root := some (p.root.getD p.graph.size) }

/-- The root after an edge has been asked for.  It moves before the ends of the edge are looked
at, so it moves even if the edge is then refused. -/
def rootAfter (p : Plan) (source target : NodeId) : Option NodeId :=
  if p.root = some target then some source else p.root

/-- Makes `target` the next input of `source`. -/
def addEdge (p : Plan) (source target : NodeId) : Except EdgeDefect Plan :=
  (p.graph.addEdge source target).map fun g => { graph := g, root := p.rootAfter source target }

/-- A plan in which an edge has been asked for, and why it was refused if it was. -/
def tryEdge (p : Plan) (source target : NodeId) : Plan × Except EdgeDefect Unit :=
  match p.graph.addEdge source target with
  | .ok g => ({ graph := g, root := p.rootAfter source target }, .ok ())
  | .error d => ({ p with root := p.rootAfter source target }, .error d)

/-- The inputs of a node, in order. -/
def inputs (p : Plan) (n : NodeId) : List NodeId :=
  p.graph.targets n

/-- One of the inputs of a node. -/
def input? (p : Plan) (n : NodeId) (ordinal : Nat) : Option NodeId :=
  (p.inputs n)[ordinal]?

/-- The operation of a node. -/
def node? (p : Plan) (n : NodeId) : Option PlanNode :=
  p.graph.data? n

end Plan

end StreamQuery
