/-
Several channels used by one thread.

A call whose turn has not come does not hold the thread up: it is answered with `blocked` and keeps
its half of the channel, and it is finished later, when another call has opened its way.  Channels
are known by names.  A consumer half may still lie in a registry; it can be used once it has been
handed out.
-/
import StreamQuery.Channel.Basic

namespace StreamQuery

namespace Session

/-- The producer half of a channel. -/
inductive SinkState where
  | ready
  /-- In a call that puts this item. -/
  | blocked (item : Item)
  /-- Dropped or used up. -/
  | gone
deriving DecidableEq, Repr

/-- The consumer half of a channel. -/
inductive SourceState where
  /-- Registered and not handed out. -/
  | registered
  | ready
  /-- In a call that takes an item. -/
  | blocked
  /-- Dropped. -/
  | gone
deriving DecidableEq, Repr

/-- A channel with the state of its two halves. -/
structure Line where
  channel : Channel
  sink : SinkState
  source : SourceState
deriving Repr

/-- A call that had been blocked, with its result. -/
inductive Released where
  | sent (result : Except ChannelError Unit)
  | received (result : Except ChannelError Item)
deriving Repr

/-- The answer to a call. -/
inductive Answer (α : Type) where
  | done (result : Except ChannelError α)
  | blocked
deriving Repr

/-- Why a call cannot be made. -/
inductive Refusal where
  /-- There is no channel of this name, or there is one already. -/
  | noChannel
  /-- The producer half is gone or in a call. -/
  | noSink
  /-- The consumer half is gone, in a call or not handed out. -/
  | noSource
deriving DecidableEq, Repr

end Session

open Session in
/-- The channels of a session, by name, and whether they were cancelled. -/
structure Session where
  cancelled : Bool
  lines : List (String × Line)
deriving Repr

namespace Session

/-- A session without channels. -/
def empty : Session := ⟨false, []⟩

/-- The channel of a name. -/
def line? (s : Session) (name : String) : Option Line :=
  s.lines.lookup name

/-- Changes the channel of a name. -/
def update (s : Session) (name : String) (l : Line) : Session :=
  { s with lines := s.lines.map fun e => if e.1 = name then (name, l) else e }

/-- Adds a channel whose consumer half is in this state. -/
def add (s : Session) (name : String) (source : SourceState) : Except Refusal Session :=
  match s.line? name with
  | some _ => .error .noChannel
  | none =>
    let line : Line := ⟨.new, .ready, source⟩
    .ok { s with lines := (s.lines ++ [(name, line)]).mergeSort fun a b =>
      (Ord.compare (Text.Utf8.encode a.1) (Text.Utf8.encode b.1)).isLE }

/-- Cancels all channels. -/
def cancel (s : Session) : Session :=
  { s with cancelled := true }

/-- The channel of a name whose producer half can be used. -/
def sinkOf (s : Session) (name : String) : Except Refusal Line :=
  match s.line? name with
  | none => .error .noChannel
  | some l => if l.sink = .ready then .ok l else .error .noSink

/-- The channel of a name whose consumer half can be used. -/
def sourceOf (s : Session) (name : String) : Except Refusal Line :=
  match s.line? name with
  | none => .error .noChannel
  | some l => if l.source = .ready then .ok l else .error .noSource

/-- The line after its producer half has put an item or failed to.  Closing the stream uses the
half up, however it ends. -/
def Line.afterPut (l : Line) (c : Channel) (item : Item) : Line :=
  if item.isEnd then { l with channel := c.dropProducer, sink := .gone }
  else { l with channel := c, sink := .ready }

/-- Puts an item with a producer half that can be used. -/
def put (s : Session) (name : String) (item : Item) : Except Refusal (Answer Unit × Session) := do
  let l ← s.sinkOf name
  match Channel.beginPut s.cancelled with
  | some e => return (.done (.error e), s.update name (l.afterPut l.channel item))
  | none =>
    match l.channel.put? item with
    | some (result, c) => return (.done result, s.update name (l.afterPut c item))
    | none => return (.blocked, s.update name { l with sink := .blocked item })

/-- Sends a row. -/
def send (s : Session) (name : String) (item : Item) :
    Except Refusal (Except SendDefect (Answer Unit) × Session) := do
  let _ ← s.sinkOf name
  match item with
  | .endOfStream => return (.error .closingMark, s)
  | .row r =>
    let (answer, s) ← s.put name (.row r)
    return (.ok answer, s)

/-- Closes the stream. -/
def close (s : Session) (name : String) : Except Refusal (Answer Unit × Session) :=
  s.put name .endOfStream

/-- Receives an item. -/
def receive (s : Session) (name : String) : Except Refusal (Answer Item × Session) := do
  let l ← s.sourceOf name
  match l.channel.beginTake s.cancelled with
  | some result => return (.done result, s)
  | none =>
    match l.channel.take? with
    | some (result, c) => return (.done result, s.update name { l with channel := c })
    | none => return (.blocked, s.update name { l with source := .blocked })

/-- Whether the closing mark has been received. -/
def isFinished (s : Session) (name : String) : Except Refusal Bool :=
  (s.sourceOf name).map fun l => l.channel.finished

/-- Drops a producer half. -/
def dropSink (s : Session) (name : String) : Except Refusal Session :=
  (s.sinkOf name).map fun l =>
    s.update name { l with channel := l.channel.dropProducer, sink := .gone }

/-- Drops a consumer half. -/
def dropSource (s : Session) (name : String) : Except Refusal Session :=
  (s.sourceOf name).map fun l =>
    s.update name { l with channel := l.channel.dropConsumer, source := .gone }

/-- A registered consumer half is handed out. -/
def handOut (s : Session) (name : String) : Session :=
  match s.line? name with
  | some l => s.update name { l with source := .ready }
  | none => s

/-- A registered consumer half goes with its registration. -/
def orphan (s : Session) (name : String) : Session :=
  match s.line? name with
  | some l => s.update name { l with channel := l.channel.dropConsumer, source := .gone }
  | none => s

/-- Finishes a blocked call of a channel if its way is open, a put before a take. -/
def Line.release? (cancelled : Bool) (l : Line) : Option (Released × Line) :=
  let released := match l.sink with
    | .blocked item =>
      match l.channel.put? item with
      | some (result, c) => some (.sent result, l.afterPut c item)
      | none =>
        if cancelled then some (.sent (.error .cancelled), l.afterPut l.channel item) else none
    | _ => none
  match released, l.source with
  | some r, _ => some r
  | none, .blocked =>
    match l.channel.take? with
    | some (result, c) => some (.received result, { l with channel := c, source := .ready })
    | none =>
      if cancelled then some (.received (.error .cancelled), { l with source := .ready }) else none
  | none, _ => none

/-- One pass over the channels in the order of their names, finishing at most one call of each. -/
def releasePass (cancelled : Bool) :
    List (String × Line) → List (String × Released) × List (String × Line)
  | [] => ([], [])
  | (name, l) :: rest =>
    let (released, lines) := releasePass cancelled rest
    match l.release? cancelled with
    | some (r, l) => ((name, r) :: released, (name, l) :: lines)
    | none => (released, (name, l) :: lines)

/-- How many calls are blocked. -/
def blockedCount (s : Session) : Nat :=
  total (s.lines.map fun e =>
    (match e.2.sink with
      | .blocked _ => 1
      | _ => 0) + (if e.2.source = .blocked then 1 else 0))

/-- Makes passes until one finishes no call, and at most `n` of them. -/
def releaseUpTo (s : Session) : Nat → List (String × Released) × Session
  | 0 => ([], s)
  | n + 1 =>
    let (released, lines) := releasePass s.cancelled s.lines
    if released.isEmpty then ([], s)
    else
      let (more, s) := releaseUpTo { s with lines } n
      (released ++ more, s)

/-- Finishes the blocked calls whose way is open.  Every pass but the last finishes one, so there
are no more passes than calls. -/
def release (s : Session) : List (String × Released) × Session :=
  s.releaseUpTo s.blockedCount

end Session

end StreamQuery
