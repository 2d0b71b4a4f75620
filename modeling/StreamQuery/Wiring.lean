/-
The registry that connects the operations of a plan.

Every operation registers the channel of its output before a consumer asks for it.  The consumer
half of a registered channel is handed out at most once.  Registering an operation again puts a
new channel in place of the old one.
-/
import StreamQuery.Plan.Basic

namespace StreamQuery

/-- The output of an operation: its channel, and whether the consumer half was handed out. -/
structure Output (κ : Type) where
  channel : κ
  taken : Bool
deriving DecidableEq, Repr

/-- The outputs registered so far; at most one for each node. -/
structure Wiring (κ : Type) where
  outputs : List (NodeId × Output κ)
deriving Repr

/-- Why a consumer half cannot be handed out. -/
inductive WiringDefect where
  /-- The node has no such input. -/
  | noInput (node : NodeId) (ordinal : Nat)
  /-- The node has not registered its output. -/
  | unregistered (node : NodeId)
  /-- The consumer half was already handed out. -/
  | taken (node : NodeId)
deriving DecidableEq, Repr

/-- The text of a defect. -/
def WiringDefect.message : WiringDefect → String
  | .noInput node ordinal =>
    "node " ++ String.ofList (Text.decimal node) ++ " has no input "
      ++ String.ofList (Text.decimal ordinal)
  | .unregistered node =>
    "node " ++ String.ofList (Text.decimal node) ++ " was read before sink() registered it"
  | .taken node =>
    "output of node " ++ String.ofList (Text.decimal node) ++ " already has a consumer"

namespace Wiring

variable {κ : Type}

/-- The registry without outputs. -/
def empty : Wiring κ := ⟨[]⟩

/-- The output registered for a node. -/
def output? (w : Wiring κ) (node : NodeId) : Option (Output κ) :=
  w.outputs.lookup node

/-- How many nodes have registered an output. -/
def size (w : Wiring κ) : Nat :=
  w.outputs.length

/-- Registers an output in place of the one that the node has. -/
def put (w : Wiring κ) (node : NodeId) (o : Output κ) : Wiring κ :=
  ⟨(node, o) :: w.outputs.filter fun e => e.1 != node⟩

/-- Registers the channel of a node's output.  If it takes the place of a channel whose consumer
half was never handed out, that channel is answered too: it has lost its consumer. -/
def register (w : Wiring κ) (node : NodeId) (channel : κ) : Option κ × Wiring κ :=
  let orphan := match w.output? node with
    | some o => if o.taken then none else some o.channel
    | none => none
  (orphan, w.put node ⟨channel, false⟩)

/-- Hands out the consumer half of a node's output. -/
def takeOutput (w : Wiring κ) (node : NodeId) : Except WiringDefect (κ × Wiring κ) :=
  match w.output? node with
  | none => .error (.unregistered node)
  | some o =>
    if o.taken then .error (.taken node)
    else .ok (o.channel, w.put node { o with taken := true })

/-- Hands out the consumer half of the output that feeds one of a node's inputs. -/
def takeInput (w : Wiring κ) (plan : Plan) (node : NodeId) (ordinal : Nat) :
    Except WiringDefect (κ × Wiring κ) :=
  match plan.input? node ordinal with
  | none => .error (.noInput node ordinal)
  | some input => w.takeOutput input

/-- Hands out the consumer halves for the inputs of a node from `ordinal` on, `count` of them. -/
def takeInputs (w : Wiring κ) (plan : Plan) (node : NodeId) (ordinal : Nat) :
    Nat → Except WiringDefect (List κ × Wiring κ)
  | 0 => .ok ([], w)
  | count + 1 => do
    let (channel, w) ← w.takeInput plan node ordinal
    let (rest, w) ← w.takeInputs plan node (ordinal + 1) count
    return (channel :: rest, w)

end Wiring

end StreamQuery
