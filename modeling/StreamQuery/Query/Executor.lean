/-
Running queries.

An executor is given one query after another.  It holds the query that was configured last until
that is started, the output of the one that was started last, and the workers of all started
queries that have not been joined yet.  `Executor.step` is one step of whoever can make one: a
worker of a started query, the thread that called the executor, or anybody who cancels a query.

A call of the executor is itself made of steps, because it reads from a channel and waits for
workers.  `Executor.call` makes the steps of a call to its end in one fixed order in which workers
go first; any other order is as good.
-/
import StreamQuery.Query.Network
import StreamQuery.Query.Result

namespace StreamQuery

/-- Why a call of an executor failed. -/
inductive QueryError where
  /-- There is no query to start. -/
  | notConfigured
  /-- There is no output to read from. -/
  | notStarted
  /-- A call on a channel failed, here or in a worker. -/
  | channel (e : ChannelError)
deriving DecidableEq, Repr

/-- A network with the channel of its answer. -/
structure Query where
  network : Network
  output : Nat

namespace Executor

/-- What an executor is asked. -/
inductive Request where
  /-- To start the configured query. -/
  | start
  /-- For the next row. -/
  | next
  /-- To stop everything and wait for the workers. -/
  | close
  /-- For the whole answer of the configured query. -/
  | execute
  /-- To stop everything and wait for the workers, whatever has become of them. -/
  | shutDown
deriving DecidableEq, Repr

/-- What an executor answers. -/
inductive Answer where
  | ok
  /-- A row, or none behind the last. -/
  | next (row : Option Row)
  | result (r : QueryResult)
  | failed (e : QueryError)
  /-- A worker had crashed. -/
  | crashed (d : RunDefect)
  /-- No step was left to make, but the call had not come to its end. -/
  | stuck
deriving Repr

/-- What has been learned from the workers joined so far: the first failure other than
cancellation, whether one was cancelled, and the first crash. -/
structure Joined where
  failure : Option ChannelError
  cancelled : Bool
  crash : Option RunDefect

/-- Nothing learned. -/
def Joined.none : Joined := ⟨.none, false, .none⟩

/-- What has been learned when one more worker is joined. -/
def Joined.add (j : Joined) : Outcome → Joined
  | .ok => j
  | .failed .cancelled => { j with cancelled := true }
  | .failed e => { j with failure := j.failure.or (some e) }
  | .crashed d => { j with crash := j.crash.or (some d) }

/-- What a call that waits for workers answers in the end. -/
inductive Purpose where
  /-- The result of stopping. -/
  | close
  /-- The answer of a query, of which these rows were read, or the failure of reading them. -/
  | execute (read : Except ChannelError (List Row))
  /-- Nothing. -/
  | shutDown

/-- What the thread that calls the executor is at. -/
inductive Activity where
  /-- In no call; the last one was answered like this. -/
  | idle (last : Answer)
  /-- Reading one row; `waiting` once the read has begun. -/
  | reading (waiting : Bool)
  /-- Reading all rows; those read so far, last first. -/
  | collecting (rows : List Row) (waiting : Bool)
  /-- About to stop the query; whether it was cancelled is not known yet. -/
  | stopping (p : Purpose)
  /-- About to cancel the query unless its output is drained; whether it was cancelled before. -/
  | draining (p : Purpose) (before : Bool)
  /-- Waiting for these workers, each of a query with its number. -/
  | joining (p : Purpose) (before : Bool) (left : List (Nat × Nat)) (joined : Joined)

end Executor

open Executor in
/-- An executor.  Queries have numbers in the order in which they were configured. -/
structure Executor where
  queries : List Query
  /-- The query that was configured and not started. -/
  configured : Option Nat
  /-- The query whose output is read. -/
  output : Option Nat
  /-- The schema of the query that was configured last. -/
  schema : Option Schema
  /-- The query that was configured last, which is the one that is cancelled. -/
  handle : Option Nat
  /-- The started queries whose workers have not been joined, in order. -/
  started : List Nat
  activity : Activity

/-- What can happen next. -/
inductive Event where
  /-- A step of a worker of a query. -/
  | worker (query worker : Nat) (m : Move)
  /-- A step of the thread that calls the executor; it gives up waiting or it does not. -/
  | caller (giveUp : Bool)
  /-- Somebody cancels a query. -/
  | cancel (query : Nat)
deriving DecidableEq, Repr

namespace Executor

/-- An executor without queries. -/
def new : Executor := ⟨[], none, none, none, none, [], .idle .ok⟩

/-- Changes the network of a query. -/
def setNetwork (e : Executor) (q : Nat) (n : Network) : Executor :=
  { e with queries := e.queries.modify q fun query => { query with network := n } }

/-- Changes the network of a query by a function. -/
def onNetwork (e : Executor) (q : Nat) (f : Network → Network) : Executor :=
  { e with queries := e.queries.modify q fun query => { query with network := f query.network } }

/-- Sets the query that the next start will run. -/
def configure (e : Executor) (a : Assembly) : Executor :=
  let q := e.queries.length
  { e with
    queries := e.queries ++ [⟨.ofAssembly a, a.output⟩]
    configured := some q
    schema := some a.schema
    handle := some q }

/-- Whether the query that was configured last is cancelled; none if there is no such query. -/
def isCancelled? (e : Executor) : Option Bool :=
  e.handle.bind fun q => e.queries[q]?.map fun query => query.network.cancelled

/-- Cancels the query that was configured last. -/
def cancel (e : Executor) : Executor :=
  match e.handle with
  | some q => e.onNetwork q Network.cancel
  | none => e

/-- Ends a call. -/
def finish (e : Executor) (a : Answer) : Executor :=
  { e with activity := .idle a }

/-- The consumer half of the output that is read is dropped. -/
def dropOutput (e : Executor) : Executor :=
  match e.output with
  | none => e
  | some q =>
    { e with
      output := none
      queries := e.queries.modify q fun query =>
        { query with network := { query.network with
            channels := query.network.channels.modify query.output Channel.dropConsumer } } }

/-- Starts the configured query; the output of the one before is dropped.  Every worker gets a
thread of its own, and the system is taken to have one for each: a start that fails halfway because
a thread is refused is left out. -/
def startQuery (e : Executor) : Except QueryError Executor :=
  match e.configured with
  | none => .error .notConfigured
  | some q =>
    let e := e.dropOutput
    .ok { e with configured := none, output := some q, started := e.started ++ [q] }

/-- The workers of the started queries, in the order in which they were started. -/
def startedWorkers (e : Executor) : List (Nat × Nat) :=
  e.started.flatMap fun q =>
    match e.queries[q]? with
    | some query => (List.range query.network.workers.length).map fun k => (q, k)
    | none => []

/-- Begins a call. -/
def begin (e : Executor) : Request → Executor
  | .start =>
    match e.startQuery with
    | .ok e => e.finish .ok
    | .error err => e.finish (.failed err)
  | .next =>
    match e.output with
    | some _ => { e with activity := .reading false }
    | none => e.finish (.failed .notStarted)
  | .close =>
    match e.handle with
    | some _ => { e with activity := .stopping .close }
    | none => e.finish .ok
  | .execute =>
    match e.schema, e.startQuery with
    | none, _ => e.finish (.failed .notConfigured)
    | some _, .ok e => { e with activity := .collecting [] false }
    | some _, .error err => e.finish (.failed err)
  | .shutDown =>
    if e.started.isEmpty then e.finish .ok
    else { e.cancel with activity := .joining .shutDown false e.startedWorkers .none }

/-- What a call becomes when its read was answered. -/
def answered (e : Executor) (r : Except ChannelError Item) : Executor :=
  match e.activity, r with
  | .reading _, .ok (.row row) => e.finish (.next (some row))
  | .reading _, .ok .endOfStream => e.finish (.next none)
  | .reading _, .error err => e.finish (.failed (.channel err))
  | .collecting rows _, .ok (.row row) => { e with activity := .collecting (row :: rows) false }
  | .collecting rows _, .ok .endOfStream =>
    { e with activity := .stopping (.execute (.ok rows.reverse)) }
  | .collecting _ _, .error err => { e with activity := .stopping (.execute (.error err)) }
  | _, _ => e

/-- The read of a call is marked as begun. -/
def waiting (e : Executor) : Executor :=
  match e.activity with
  | .reading _ => { e with activity := .reading true }
  | .collecting rows _ => { e with activity := .collecting rows true }
  | _ => e

/-- One step of reading from the output. -/
def stepRead (e : Executor) (begun giveUp : Bool) : Option Executor := do
  let q ← e.output
  let query ← e.queries[q]?
  let c ← query.network.channels[query.output]?
  if begun then
    if giveUp then
      if query.network.cancelled then some (e.answered (.error .cancelled)) else none
    else do
      let (r, c) ← c.take?
      some ((e.setNetwork q (query.network.setChannel query.output c)).answered r)
  else if giveUp then none
  else
    match c.beginTake query.network.cancelled with
    | some r => some (e.answered r)
    | none => some e.waiting

/-- What stopping answers when all workers are joined. -/
def closeResult (before : Bool) (j : Joined) : Answer :=
  match j.crash, j.failure with
  | some d, _ => .crashed d
  | none, some err => .failed (.channel err)
  | none, none => if j.cancelled && before then .failed (.channel .cancelled) else .ok

/-- What a call answers when all workers are joined.  A failure of a worker explains a failed read
better than the read does. -/
def joinedResult (e : Executor) (p : Purpose) (before : Bool) (j : Joined) : Answer :=
  match p, closeResult before j with
  | .shutDown, _ => .ok
  | .close, a => a
  | .execute read, .ok =>
    match read with
    | .ok rows => .result ⟨e.schema.getD [], rows⟩
    | .error err => .failed (.channel err)
  | .execute _, a => a

/-- Whether the output that is read has come to its end. -/
def isDrained (e : Executor) : Bool :=
  match e.output with
  | none => true
  | some q =>
    match e.queries[q]? with
    | some query =>
      match query.network.channels[query.output]? with
      | some c => c.finished
      | none => true
    | none => true

/-- How a worker ended, once it holds nothing any more. -/
def outcome? (e : Executor) (q k : Nat) : Option Outcome := do
  let query ← e.queries[q]?
  let w ← query.network.workers[k]?
  w.life.outcome?

/-- One step of the thread that calls the executor. -/
def stepCaller (e : Executor) (giveUp : Bool) : Option Executor :=
  match e.activity with
  | .idle _ => none
  | .reading begun => e.stepRead begun giveUp
  | .collecting _ begun => e.stepRead begun giveUp
  | .stopping p =>
    if giveUp then none
    else some { e with activity := .draining p (e.isCancelled?.getD false) }
  | .draining p before =>
    if giveUp then none
    else
      let e := if e.isDrained then e else e.cancel
      some { e with activity := .joining p before e.startedWorkers .none }
  | .joining p before ((q, k) :: left) j =>
    if giveUp then none
    else (e.outcome? q k).map fun o => { e with activity := .joining p before left (j.add o) }
  | .joining p before [] j =>
    if giveUp then none
    else some ({ e.dropOutput with started := [] }.finish (e.joinedResult p before j))

/-- One step of whoever can make it. -/
def step (e : Executor) : Event → Option Executor
  | .worker q k m =>
    if q ∈ e.started then do
      let query ← e.queries[q]?
      let n ← query.network.step k m
      some (e.setNetwork q n)
    else none
  | .caller giveUp => e.stepCaller giveUp
  | .cancel q => if q < e.queries.length then some (e.onNetwork q Network.cancel) else none

/-- The states that an executor can be in. -/
inductive Reachable : Executor → Prop where
  | new : Reachable new
  | configure {e : Executor} {last : Answer} (a : Assembly) :
      Reachable e → e.activity = .idle last → Reachable (e.configure a)
  | call {e : Executor} {last : Answer} (r : Request) :
      Reachable e → e.activity = .idle last → Reachable (e.begin r)
  | step {e e' : Executor} (event : Event) :
      Reachable e → e.step event = some e' → Reachable e'

/-! ### One order of steps -/

/-- The executor when the workers of all started queries are done or wait. -/
def settle (e : Executor) : Executor :=
  e.started.foldl (fun e q => e.onNetwork q Network.settle) e

/-- One step of the caller, giving up only if there is no other. -/
def stepCallerAny (e : Executor) : Option Executor :=
  (e.stepCaller false).or (e.stepCaller true)

/-- How many steps a call may still take: a read for every item that may still come, one step for
every worker, and a few to begin and to end. -/
def callLength (e : Executor) : Nat :=
  let items := total (e.queries.map fun query => query.network.work)
  2 * items + e.startedWorkers.length + 8

/-- Makes the steps of a call to its end, and at most so many of the caller's; before each, all
workers go on as far as they can. -/
def drive (e : Executor) : Nat → Executor × Answer
  | 0 => (e, .stuck)
  | fuel + 1 =>
    match e.activity with
    | .idle a => (e, a)
    | _ =>
      match e.settle.stepCallerAny with
      | some e' => drive e' fuel
      | none => (e.settle, .stuck)

/-- Makes a call. -/
def call (e : Executor) (r : Request) : Executor × Answer :=
  let e := e.begin r
  e.drive e.callLength

end Executor

end StreamQuery
