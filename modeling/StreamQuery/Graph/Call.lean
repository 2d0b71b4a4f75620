/-
Calls on a graph that goes on being used after a crash.

Adding an edge takes several steps, and each of them can find that the call makes no sense.  The
steps before it have been taken by then and stay taken: whoever catches the crash has the graph as
it is at that moment.  So the steps are written down one by one here, and a call has an answer and
leaves a graph in any case.
-/
import StreamQuery.Graph

namespace StreamQuery.Graph

/-- Work on a graph that may crash.  What has been done before the crash stays done. -/
abbrev Work (α β : Type) := ExceptT EdgeDefect (StateM (Graph α)) β

namespace Work

variable {α β : Type}

/-- Does the work.  Answers its result, or the crash, and the graph that there is then. -/
def run (w : Work α β) (g : Graph α) : Except EdgeDefect β × Graph α :=
  StateT.run (ExceptT.run w) g

/-- Puts a node behind all others and answers its place. -/
def addNode (data : α) : Work α NodeId := do
  modify fun g => { g with nodes := g.nodes ++ [⟨data, []⟩] }
  return (← get).size - 1

/-- Goes on only if an edge can end there. -/
def requireTarget (target : NodeId) : Work α Unit := do
  if target < (← get).size then return () else throw (.noTarget target)

/-- Puts the end of an edge behind the others out of `source`. -/
def pushTarget (source target : NodeId) : Work α Unit := do
  let g ← get
  if source < g.size then
    set { g with
      nodes := g.nodes.modify source fun n => { n with targets := n.targets ++ [target] } }
  else throw (.noSource source g.size)

/-- Counts one more edge. -/
def countEdge : Work α Unit :=
  modify fun g => { g with edgeCount := g.edgeCount + 1 }

/-- The steps of adding an edge. -/
def addEdge (source target : NodeId) : Work α Unit := do
  requireTarget target
  pushTarget source target
  countEdge

end Work

/-- A call that changes a graph. -/
inductive Call (α : Type) where
  | addNode (data : α)
  | addEdge (source target : NodeId)
deriving Repr

/-- How a call ended. -/
inductive Answer where
  /-- A node was added at this place. -/
  | node (n : NodeId)
  /-- An edge was added. -/
  | linked
  /-- The call crashed. -/
  | crashed (d : EdgeDefect)
deriving DecidableEq, Repr

/-- What a call does. -/
def Call.work {α : Type} : Call α → Work α Answer
  | .addNode data => do return .node (← Work.addNode data)
  | .addEdge source target => do
    Work.addEdge source target
    return .linked

variable {α : Type}

/-- Makes a call.  If it crashes, the crash is caught. -/
def perform (g : Graph α) (c : Call α) : Answer × Graph α :=
  match c.work.run g with
  | (.ok a, g) => (a, g)
  | (.error d, g) => (.crashed d, g)

/-- Makes calls one after the other, whether or not they crash.  Answers them with how each of
them ended. -/
def performAll (g : Graph α) : List (Call α) → List (Call α × Answer) × Graph α
  | [] => ([], g)
  | c :: cs =>
    let (a, g) := g.perform c
    let (history, g) := g.performAll cs
    ((c, a) :: history, g)

end StreamQuery.Graph
