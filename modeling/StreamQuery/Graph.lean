/-
Directed graphs whose nodes are known by the order in which they were added.

The edges out of a node stay in the order in which they were added, so the place of an edge among
them can stand for something.  An edge needs both its ends; adding one without them changes
nothing.
-/
import StreamQuery.Text.Basic

namespace StreamQuery

/-- The place of a node in its graph. -/
abbrev NodeId := Nat

namespace Graph

/-- A node with the ends of the edges out of it. -/
structure Node (α : Type) where
  data : α
  targets : List NodeId
deriving Repr

end Graph

/-- A directed graph. -/
structure Graph (α : Type) where
  nodes : List (Graph.Node α)
  edgeCount : Nat
deriving Repr

/-- Why an edge cannot be added. -/
inductive EdgeDefect where
  | noTarget (target : NodeId)
  | noSource (source : NodeId) (size : Nat)
deriving DecidableEq, Repr

/-- The text of a defect. -/
def EdgeDefect.message : EdgeDefect → String
  | .noTarget target => "edge target " ++ String.ofList (Text.decimal target) ++ " is not a node"
  | .noSource source size =>
    "index out of bounds: the len is " ++ String.ofList (Text.decimal size)
      ++ " but the index is " ++ String.ofList (Text.decimal source)

namespace Graph

variable {α : Type}

/-- The graph without nodes. -/
def empty : Graph α := ⟨[], 0⟩

/-- How many nodes a graph has. -/
def size (g : Graph α) : Nat :=
  g.nodes.length

/-- Adds a node behind all others. -/
def addNode (g : Graph α) (data : α) : Graph α :=
  { g with nodes := g.nodes ++ [⟨data, []⟩] }

/-- Adds an edge behind the others out of `source`.  The target is looked at first. -/
def addEdge (g : Graph α) (source target : NodeId) : Except EdgeDefect (Graph α) :=
  if target < g.size then
    if source < g.size then
      .ok { nodes := g.nodes.modify source fun n => { n with targets := n.targets ++ [target] },
            edgeCount := g.edgeCount + 1 }
    else .error (.noSource source g.size)
  else .error (.noTarget target)

/-- The ends of the edges out of a node, in order; a node that is not there has none. -/
def targets (g : Graph α) (n : NodeId) : List NodeId :=
  match g.nodes[n]? with
  | some node => node.targets
  | none => []

/-- What a node carries. -/
def data? (g : Graph α) (n : NodeId) : Option α :=
  g.nodes[n]?.map Node.data

/-- All edges as pairs, grouped by their source. -/
def edges (g : Graph α) : List (NodeId × NodeId) :=
  g.nodes.zipIdx.flatMap fun (node, source) => node.targets.map fun target => (source, target)

end Graph

end StreamQuery
