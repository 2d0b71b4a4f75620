/-
Plans as JSON.

A plan is written as an object: the operations under keys of their own, for each key the keys of
its inputs, and the key of the root or null.  A key that reads as a number ranks by it and any
other key ranks last; the nodes of the plan are numbered in the order of their ranks.  Nothing
else depends on the order in which the members are written.
-/
import StreamQuery.Json.Expr
import StreamQuery.Json.Printer
import StreamQuery.Json.Reader
import StreamQuery.Json.Schema
import StreamQuery.Plan.Basic

namespace StreamQuery.Json

/-- What an operation with one field carries. -/
def toCondition? (j : Json) : Option Expr :=
  match fields? ["condition"] j with
  | some [some e] => toExpr? .named e
  | _ => none

/-- An operation. -/
def toPlanNode? (j : Json) : Option PlanNode :=
  match j.choice? with
  | some (kind, some body) =>
    if kind = "Scan" then
      match fields? ["alias"] body with
      | some [some table] => (toText? table).map .scan
      | _ => none
    else if kind = "Values" then
      match fields? ["schema", "rows"] body with
      | some [some schema, some rows] => do
        some (.values (← toSchema? schema) (← toStored? rows))
      | _ => none
    else if kind = "Filter" then (toCondition? body).map .filter
    else if kind = "Project" then
      match fields? ["exprs", "names"] body with
      | some [some exprs, names] => do
        let given ← match names with
          | some list => toList? toText? list
          | none => some []
        some (.project (← toList? (toExpr? .named) exprs) given)
      | _ => none
    else if kind = "Join" then (toCondition? body).map .join
    else if kind = "Union" then (fields? [] body).map fun _ => .union
    else none
  | _ => none

/-- The JSON of an operation. -/
def ofPlanNode : PlanNode → Json
  | .scan table => .obj [("Scan", .obj [("alias", .str table)])]
  | .values schema rows =>
    .obj [("Values", .obj [("rows", ofStored rows), ("schema", ofSchema schema)])]
  | .filter condition => .obj [("Filter", .obj [("condition", ofExpr condition)])]
  | .project exprs names =>
    .obj [("Project", .obj [("exprs", .arr (ofExprs exprs)), ("names", .arr (names.map .str))])]
  | .join condition => .obj [("Join", .obj [("condition", ofExpr condition)])]
  | .union => .obj [("Union", .obj [])]

end StreamQuery.Json

namespace StreamQuery.Plan

/-- The key under which a node is written. -/
def key (n : NodeId) : String :=
  String.ofList (Text.decimal n)

/-- The rank of a key: the number it reads as, or the last rank. -/
def rank (key : String) : Nat :=
  ((Text.readUnsigned key.toList).map UInt64.toNat).getD (UInt64.size - 1)

/-- The members of a written plan. -/
structure Entries where
  nodes : List (String × PlanNode)
  edges : List (String × List String)
  root : Option String

/-- The entries with their nodes in the order of their ranks. -/
def Entries.ranked (e : Entries) : List (String × PlanNode) :=
  e.nodes.mergeSort fun a b => rank a.1 ≤ rank b.1

/-- The number of the node of a key among nodes in order. -/
def numberOf? (nodes : List (String × PlanNode)) (key : String) : Option NodeId :=
  nodes.findIdx? fun n => n.1 == key

/-- Adds the inputs of one node, given by their keys. -/
def addInputs (nodes : List (String × PlanNode)) (source : String) :
    Graph PlanNode → List String → Option (Graph PlanNode)
  | g, [] => some g
  | g, target :: rest => do
    let s ← numberOf? nodes source
    let t ← numberOf? nodes target
    match g.addEdge s t with
    | .ok g => addInputs nodes source g rest
    | .error _ => none

/-- The plan of entries, if every key that is named is a key of a node. -/
def ofEntries? (e : Entries) : Option Plan := do
  let nodes := e.ranked
  let bare : Graph PlanNode := nodes.foldl (fun g n => g.addNode n.2) .empty
  let root ← match e.root with
    | none => some none
    | some key => (numberOf? nodes key).map some
  let graph ← e.edges.foldlM (fun g edge => do
    let _ ← numberOf? nodes edge.1
    addInputs nodes edge.1 g edge.2) bare
  some { graph, root }

/-- The entries that a JSON value holds. -/
def entries? (j : Json) : Option Entries := do
  let nodes ← j.member? "nodes" >>= Json.toMembers?
  let edges ← j.member? "edges" >>= Json.toMembers?
  let root ← match j.member? "root" with
    | none | some .null => some none
    | some (.str key) => some (some key)
    | some _ => none
  some {
    nodes := ← nodes.mapM fun m => (Json.toPlanNode? m.2).map (m.1, ·)
    edges := ← edges.mapM fun m => (Json.toList? Json.toText? m.2).map (m.1, ·)
    root }

/-- The plan that a text says; none if it says none. -/
def ofText? (text : List Char) : Option Plan :=
  Json.parse text >>= entries? >>= ofEntries?

/-- The JSON of a plan.  Nodes without inputs have no entry among the edges. -/
def toJson (p : Plan) : Json :=
  let numbered := p.graph.nodes.zipIdx
  .obj [
    ("edges", .object ((numbered.filter fun n => !n.1.targets.isEmpty).map fun n =>
      (key n.2, .arr (n.1.targets.map fun t => .str (key t))))),
    ("nodes", .object (numbered.map fun n => (key n.2, Json.ofPlanNode n.1.data))),
    ("root", match p.root with
      | some n => .str (key n)
      | none => .null)]

end StreamQuery.Plan
