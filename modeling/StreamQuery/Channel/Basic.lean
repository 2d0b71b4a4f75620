/-
Channels that hold one item.

The producer puts items into the slot and the consumer takes them out; an operation whose turn has
not come waits.  Every operation first looks whether the query was cancelled, and while it waits
it goes on watching for that, so an operation that waits may end in two ways: by the slot or by
the cancellation.  When both are possible, either may happen.

`Channel.put?` and `Channel.take?` are the first way, and they answer none as long as it is not
open.
-/
import StreamQuery.Row

namespace StreamQuery

/-- Why an operation on a channel failed. -/
inductive ChannelError where
  /-- The query was cancelled. -/
  | cancelled
  /-- The consumer is gone. -/
  | consumerClosed
  /-- The producer is gone and has not closed the stream. -/
  | producerStopped
deriving DecidableEq, Repr

/-- A channel: its slot, which of its halves are still held, and whether the consumer has taken
the closing mark. -/
structure Channel where
  slot : Option Item
  producer : Bool
  consumer : Bool
  finished : Bool
deriving DecidableEq, Repr

namespace Channel

/-- A channel both of whose halves are held, with nothing in the slot. -/
def new : Channel := ⟨none, true, true, false⟩

/-- Puts an item into the slot, or finds that nobody will take it; none while the slot is taken. -/
def put? (c : Channel) (item : Item) : Option (Except ChannelError Unit × Channel) :=
  if c.consumer then
    match c.slot with
    | some _ => none
    | none => some (.ok (), { c with slot := some item })
  else some (.error .consumerClosed, c)

/-- Takes the item out of the slot, or finds that no other will come; none while the slot is empty
and the producer may still fill it. -/
def take? (c : Channel) : Option (Except ChannelError Item × Channel) :=
  match c.slot with
  | some item => some (.ok item, { c with slot := none, finished := item.isEnd })
  | none => if c.producer then none else some (.error .producerStopped, c)

/-- The producer lets go of its half. -/
def dropProducer (c : Channel) : Channel :=
  { c with producer := false }

/-- The consumer lets go of its half. -/
def dropConsumer (c : Channel) : Channel :=
  { c with consumer := false }

/-- How a put begins: it fails if the query was cancelled and waits otherwise. -/
def beginPut (cancelled : Bool) : Option ChannelError :=
  if cancelled then some .cancelled else none

/-- How a take begins: after the closing mark it comes again, whatever happens; else the take
fails if the query was cancelled and waits otherwise. -/
def beginTake (c : Channel) (cancelled : Bool) : Option (Except ChannelError Item) :=
  if c.finished then some (.ok .endOfStream)
  else if cancelled then some (.error .cancelled)
  else none

end Channel

/-- A use of a producer half that it does not admit: the closing mark sent like a row. -/
inductive SendDefect where
  | closingMark
deriving DecidableEq, Repr

/-- The text of a defect. -/
def SendDefect.message : SendDefect → String
  | .closingMark => "the end-of-stream sentinel can only be sent by Sink::end"

end StreamQuery
