/-
From a plan to operators that are connected by channels.

The tree of a plan is taken apart from the leaves to the root.  Each node becomes a task: an
operator, the channels it reads and the channel it writes, which has the number of the task.  Each
node also has a schema, which the expressions above it are compiled against.
-/
import StreamQuery.Catalog
import StreamQuery.Operator.Basic
import StreamQuery.Plan.Tree
import StreamQuery.Wiring

namespace StreamQuery

/-- Why a plan cannot be run. -/
inductive BuildError where
  /-- The plan is faulty. -/
  | fault (f : PlanFault)
  /-- An expression cannot be compiled. -/
  | expression (d : CompileDefect)
  /-- The operators were not connected in order. -/
  | wiring (d : WiringDefect)
deriving Repr

/-- An operator with its channels. -/
structure Task where
  node : NodeId
  operator : Operator
  inputs : List Nat
  output : Nat
deriving Repr

/-- A plan ready to run: its tasks, inputs first, the channel of the answer and its schema. -/
structure Assembly where
  tasks : List Task
  output : Nat
  schema : Schema
deriving Repr

namespace Assembly

/-- The tasks built so far, and the registry of their outputs. -/
structure State where
  tasks : List Task
  wiring : Wiring Nat

/-- The schema of the fields that expressions compute. -/
def projected (input : Schema) (names : List String) (exprs : List Expr) : Schema :=
  exprs.zipIdx.map fun (e, i) => ⟨PlanNode.fieldName names i, (e.dataType input).getD .null⟩

/-- Compiles an expression over rows of a schema. -/
def compile (input : Schema) (e : Expr) : Except BuildError Scalar :=
  (Scalar.compile (some input) e).mapError .expression

/-- The operator of an operation over inputs of the given schemas, and the schema of its rows. -/
def operator (c : Catalog) : PlanNode → List Schema → Except BuildError (Operator × Schema)
  | .scan table, _ =>
    match c.named? table with
    | some t => .ok (.values t.rows, t.schema)
    | none => .error (.fault .noTable)
  | .values schema rows, _ =>
    match rows.find? fun i => i.width != schema.length with
    | some bad => .error (.fault (.rowWidth bad schema))
    | none => .ok (.values rows, schema)
  | .filter condition, input :: _ => do
    return (.filter (← compile input condition), input)
  | .project exprs names, input :: _ => do
    return (.project (← exprs.mapM (compile input)), projected input names exprs)
  | .join condition, left :: right :: _ => do
    return (.join (← compile (left.merge right) condition), left.merge right)
  | .union, left :: right :: _ =>
    if left.length = right.length then .ok (.union, left)
    else .error (.fault (.unionWidth left right))
  | _, _ => .error (.fault .malformed)

/-- Registers the output of a node, connects its inputs and adds its task. -/
def connect (p : Plan) (node : NodeId) (op : Operator) (s : State) : Except BuildError State :=
  let output := s.tasks.length
  let wiring := (s.wiring.register node output).2
  match wiring.takeInputs p node 0 op.inputCount with
  | .error d => .error (.wiring d)
  | .ok (inputs, wiring) => .ok ⟨s.tasks ++ [⟨node, op, inputs, output⟩], wiring⟩

mutual
/-- Adds the tasks of a tree.  The answer holds the schema of the rows of its topmost node. -/
def add (c : Catalog) (p : Plan) : PlanTree → State → Except BuildError (Schema × State)
  | .fault f, _ => .error (.fault f)
  | .node id op inputs, s => do
    let (schemas, s) ← addAll c p inputs s
    let (operator, schema) ← operator c op schemas
    let s ← connect p id operator s
    return (schema, s)
/-- Adds the tasks of trees, one after the other. -/
def addAll (c : Catalog) (p : Plan) : List PlanTree → State → Except BuildError (List Schema × State)
  | [], s => .ok ([], s)
  | t :: ts, s => do
    let (schema, s) ← add c p t s
    let (schemas, s) ← addAll c p ts s
    return (schema :: schemas, s)
end

end Assembly

/-- The operators of a plan, connected and ready to run on the tables of a catalog. -/
def Plan.assemble (p : Plan) (c : Catalog) : Except BuildError Assembly := do
  let (schema, s) ← Assembly.add c p p.tree ⟨[], .empty⟩
  match p.root with
  | none => throw (.fault .noRoot)
  | some root =>
    match s.wiring.takeOutput root with
    | .error d => throw (.wiring d)
    | .ok (output, _) => return ⟨s.tasks, output, schema⟩

end StreamQuery
