/-
The operators of one query at work.

A network is a list of workers joined by channels, with one mark for all of them that says whether
the query was cancelled.  `Network.step` is one step of one worker.  It answers none when the
worker cannot make that step, which is what it means that the worker waits; a run of the query is
any sequence of steps.

A call of a worker takes two steps.  The first looks whether the query was cancelled; the second,
when its turn has come, uses the channel or finds the query cancelled.  A worker whose operator has
ended lets go of its halves one by one, in any order.  If a call had failed for another reason than
cancellation, it then cancels the query.
-/
import StreamQuery.Operator.Trial
import StreamQuery.Query.Assembly

namespace StreamQuery

/-- What a worker is at. -/
inductive Life where
  /-- In a stage of its operator; `waiting` once the call that it wants has begun. -/
  | working (s : Stage) (waiting : Bool)
  /-- Its operator has ended and it still holds these consumer halves and, with `sink`, its
  producer half. -/
  | leaving (o : Outcome) (sources : List Nat) (sink : Bool)
  /-- It holds nothing any more. -/
  | done (o : Outcome)

/-- A worker: the channels it reads, the channel it writes and what it is at. -/
structure Worker where
  inputs : List Nat
  output : Nat
  life : Life

/-- The steps that a worker can make. -/
inductive Move where
  /-- Begins the call that it wants, uses the channel, or finishes. -/
  | proceed
  /-- Gives up waiting because the query was cancelled. -/
  | giveUp
  /-- Lets go of a consumer half. -/
  | dropSource (channel : Nat)
  /-- Lets go of its producer half. -/
  | dropSink
deriving DecidableEq, Repr

/-- The workers of a query, their channels and whether the query was cancelled. -/
structure Network where
  cancelled : Bool
  channels : List Channel
  workers : List Worker

namespace Life

/-- The life of a worker whose operator has ended. -/
def ending (w : Worker) (o : Outcome) : Life :=
  .leaving o w.inputs true

/-- What becomes of a worker whose call was answered. -/
def answered (w : Worker) (s : Stage) (r : Reply) : Life :=
  match s.reply r with
  | .running t => .working t false
  | .ended o => ending w o

/-- Whether a worker holds nothing any more. -/
def outcome? : Life → Option Outcome
  | .done o => some o
  | _ => none

end Life

namespace Network

/-- The network of an assembly before its first step. -/
def ofAssembly (a : Assembly) : Network :=
  { cancelled := false
    channels := a.tasks.map fun _ => .new
    workers := a.tasks.map fun t => ⟨t.inputs, t.output, .working t.operator.stage false⟩ }

/-- Changes a channel. -/
def setChannel (n : Network) (i : Nat) (c : Channel) : Network :=
  { n with channels := n.channels.set i c }

/-- Changes what a worker is at. -/
def setLife (n : Network) (k : Nat) (w : Worker) (life : Life) : Network :=
  { n with workers := n.workers.set k { w with life } }

/-- Marks the query as cancelled. -/
def cancel (n : Network) : Network :=
  { n with cancelled := true }

/-- The channel that a worker reads as its input at a position. -/
def inputOf? (n : Network) (w : Worker) (input : Nat) : Option (Nat × Channel) := do
  let i ← w.inputs[input]?
  let c ← n.channels[i]?
  some (i, c)

/-- A worker begins the call that it wants. -/
def begin (n : Network) (k : Nat) (w : Worker) (s : Stage) : Option Network :=
  match s.want with
  | .fail d => some (n.setLife k w (Life.ending w (.crashed d)))
  | .receive input => do
    let (_, c) ← n.inputOf? w input
    match c.beginTake n.cancelled with
    | some (.ok item) => some (n.setLife k w (Life.answered w s (.item item)))
    | some (.error e) => some (n.setLife k w (Life.answered w s (.failed e)))
    | none => some (n.setLife k w (.working s true))
  | .send _ _ | .close =>
    match Channel.beginPut n.cancelled with
    | some e => some (n.setLife k w (Life.answered w s (.failed e)))
    | none => some (n.setLife k w (.working s true))

/-- A worker puts an item into its output. -/
def putItem (n : Network) (k : Nat) (w : Worker) (s : Stage) (item : Item) : Option Network := do
  let c ← n.channels[w.output]?
  match ← c.put? item with
  | (.ok (), c) => some ((n.setChannel w.output c).setLife k w (Life.answered w s .done))
  | (.error e, _) => some (n.setLife k w (Life.answered w s (.failed e)))

/-- A worker whose turn has come uses the channel. -/
def use (n : Network) (k : Nat) (w : Worker) (s : Stage) : Option Network :=
  match s.want with
  | .fail _ => none
  | .receive input => do
    let (i, c) ← n.inputOf? w input
    match ← c.take? with
    | (.ok item, c) => some ((n.setChannel i c).setLife k w (Life.answered w s (.item item)))
    | (.error e, _) => some (n.setLife k w (Life.answered w s (.failed e)))
  | .send row _ => n.putItem k w s (.row row)
  | .close => n.putItem k w s .endOfStream

/-- A worker that holds nothing any more finishes, and cancels the query if a call had failed
otherwise than by cancellation. -/
def finish (n : Network) (k : Nat) (w : Worker) (o : Outcome) : Network :=
  match o with
  | .failed .cancelled => n.setLife k w (.done o)
  | .failed _ => (n.setLife k w (.done o)).cancel
  | _ => n.setLife k w (.done o)

/-- One step of one worker. -/
def step (n : Network) (k : Nat) (m : Move) : Option Network :=
  match n.workers[k]? with
  | none => none
  | some w =>
    match w.life, m with
    | .working s false, .proceed => n.begin k w s
    | .working s true, .proceed => n.use k w s
    | .working s true, .giveUp =>
      if n.cancelled then some (n.setLife k w (Life.answered w s (.failed .cancelled))) else none
    | .leaving o sources sink, .dropSource i =>
      if i ∈ sources then
        match n.channels[i]? with
        | some c => some ((n.setChannel i c.dropConsumer).setLife k w
            (.leaving o (sources.erase i) sink))
        | none => some (n.setLife k w (.leaving o (sources.erase i) sink))
      else none
    | .leaving o sources true, .dropSink =>
      match n.channels[w.output]? with
      | some c => some ((n.setChannel w.output c.dropProducer).setLife k w
          (.leaving o sources false))
      | none => some (n.setLife k w (.leaving o sources false))
    | .leaving o [] false, .proceed => some (n.finish k w o)
    | _, _ => none

/-- The steps to try for a worker, in a fixed order. -/
def moves (w : Worker) : List Move :=
  match w.life with
  | .working _ _ => [.proceed, .giveUp]
  | .leaving _ (i :: _) _ => [.dropSource i]
  | .leaving _ [] true => [.dropSink]
  | .leaving _ [] false => [.proceed]
  | .done _ => []

/-- One step of the last worker that can make one, among those from `k` on. -/
def stepFrom (n : Network) (k : Nat) : List Worker → Option Network
  | [] => none
  | w :: ws =>
    match stepFrom n (k + 1) ws with
    | some n' => some n'
    | none => (moves w).findSome? (n.step k)

/-- One step of the last worker that can make one.  Workers come behind those they read from, so
what is wanted goes first. -/
def stepAny (n : Network) : Option Network :=
  n.stepFrom 0 n.workers

/-! ### How many steps are left

Each row that may still travel through a channel is counted at both its ends, and each end takes
two steps. -/

/-- How many items are on their way in a channel, those in its slot. -/
def inSlot (n : Network) (i : Nat) : Nat :=
  match n.channels[i]? with
  | some c => if c.slot.isSome then 1 else 0
  | none => 0

/-- How many rows a stage may still send when it still receives so many items from its first and
its second input. -/
def yield (first second : Nat) : Stage → Nat
  | .values rows => rows.length
  | .filter _ row | .project _ row => (if row.isSome then 1 else 0) + first
  | .buffer _ right => (right.length + second) * first
  | .pair _ right _ rest => rest.length + right.length * first
  | .relay _ row => (if row.isSome then 1 else 0) + first + second
  | .closing => 0

/-- How many items may still come to a worker from its input at a position, given how many each
worker before it may still send. -/
def arriving (n : Network) (supplies : List Nat) (w : Worker) (input : Nat) : Nat :=
  match w.inputs[input]? with
  | some i => n.inSlot i + supplies[i]?.getD 0
  | none => 0

/-- How many items a worker may still send, the closing mark included. -/
def supply (n : Network) (supplies : List Nat) (w : Worker) : Nat :=
  match w.life with
  | .working s _ => yield (n.arriving supplies w 0) (n.arriving supplies w 1) s + 1
  | _ => 0

/-- How many items each worker may still send.  The inputs of a worker come before it. -/
def supplies (n : Network) : List Nat :=
  n.workers.foldl (fun known w => known ++ [n.supply known w]) []

/-- How many steps a worker may still make. -/
def workOf (n : Network) (supplies : List Nat) (k : Nat) (w : Worker) : Nat :=
  match w.life with
  | .working _ waiting =>
    2 * (n.arriving supplies w 0 + n.arriving supplies w 1) + 2 * supplies[k]?.getD 0
      + w.inputs.length + 4 - (if waiting then 1 else 0)
  | .leaving _ sources sink => sources.length + (if sink then 1 else 0) + 1
  | .done _ => 0

/-- How many steps all workers together may still make. -/
def work (n : Network) : Nat :=
  let supplies := n.supplies
  total (n.workers.zipIdx.map fun (w, k) => n.workOf supplies k w)

/-- Makes steps until no worker can make one, and at most so many. -/
def settleUpTo (n : Network) : Nat → Network
  | 0 => n
  | fuel + 1 =>
    match n.stepAny with
    | some n' => settleUpTo n' fuel
    | none => n

/-- The network when every worker is done or waits. -/
def settle (n : Network) : Network :=
  n.settleUpTo n.work

end Network

end StreamQuery
