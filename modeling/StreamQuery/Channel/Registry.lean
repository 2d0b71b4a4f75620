/-
A registry whose channels are used in a session.

The producer half of a channel goes to whoever registers it, and the consumer half lies in the
registry until it is asked for, by the node that reads it or as the output of its own node.  When
a node is registered again, the consumer half that nobody has asked for is lost with the channel
that it belongs to, and the session has to know.
-/
import StreamQuery.Channel.Session
import StreamQuery.Wiring

namespace StreamQuery

/-- A registry, and the session that its channels belong to. -/
structure Registry where
  wiring : Wiring String
  session : Session
deriving Repr

namespace Registry

/-- The registry without channels. -/
def empty : Registry := ⟨.empty, .empty⟩

/-- A consumer half that can be asked for. -/
inductive Request where
  /-- That of the channel which feeds one of a node's inputs. -/
  | source (node : NodeId) (ordinal : Nat)
  /-- That of a node's own channel. -/
  | output (node : NodeId)
deriving DecidableEq, Repr

/-- Makes a channel of this name for the output of a node.  The name must be new. -/
def sink (r : Registry) (node : NodeId) (channel : String) : Except Session.Refusal Registry := do
  let session ← r.session.add channel .registered
  let (orphan, wiring) := r.wiring.register node channel
  return {
    wiring
    session := match orphan with
      | some old => session.orphan old
      | none => session }

/-- Hands out a consumer half.  If that cannot be done, nothing changes. -/
def take (r : Registry) (p : Plan) (q : Request) : Except WiringDefect String × Registry :=
  let taken := match q with
    | .source node ordinal => r.wiring.takeInput p node ordinal
    | .output node => r.wiring.takeOutput node
  match taken with
  | .error d => (.error d, r)
  | .ok (channel, wiring) => (.ok channel, { wiring, session := r.session.handOut channel })

end Registry

end StreamQuery
