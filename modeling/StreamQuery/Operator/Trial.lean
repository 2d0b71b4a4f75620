/-
An operator between given inputs and a given consumer.

`Stage.reply` is one step of an operator: what it becomes when the call that it wants is answered.
`Trial.run` answers all calls from a script: the items of each input, behind which the input has
stopped, and how many rows the consumer takes before it goes away.
-/
import StreamQuery.Operator.Basic

namespace StreamQuery

/-- The answer to a call of an operator. -/
inductive Reply where
  /-- An item was received. -/
  | item (i : Item)
  /-- A row was sent, or the output closed. -/
  | done
  /-- The call failed. -/
  | failed (e : ChannelError)
deriving DecidableEq, Repr

/-- How an operator ended. -/
inductive Outcome where
  /-- Its output is closed. -/
  | ok
  /-- A call failed. -/
  | failed (e : ChannelError)
  /-- It could not go on. -/
  | crashed (d : RunDefect)
deriving Repr

/-- What has become of an operator. -/
inductive Progress where
  | running (s : Stage)
  | ended (o : Outcome)

/-- What becomes of a stage when its call is answered.  An answer that does not belong to the call
changes nothing. -/
def Stage.reply (s : Stage) (r : Reply) : Progress :=
  match s.want, r with
  | .fail d, _ => .ended (.crashed d)
  | .receive _, .item i => .running (s.accept i)
  | .send _ after, .done => .running after
  | .close, .done => .ended .ok
  | _, .failed e => .ended (.failed e)
  | _, _ => .running s

namespace Trial

/-- What an operator is tried with. -/
structure Script where
  /-- The items that come from each input before it stops. -/
  inputs : List (List Item)
  /-- How many rows the consumer takes before it goes away; without a number it stays. -/
  take : Option Nat
  /-- Whether the query was cancelled before the operator began. -/
  cancelled : Bool

/-- What the trial showed: the rows that were taken, and how the operator ended. -/
structure Report where
  rows : List Row
  outcome : Outcome

/-- How many items are left in all inputs. -/
def Script.left (s : Script) : Nat :=
  s.inputs.flatten.length

/-- The next item of an input, and the script without it. -/
def Script.next? (s : Script) (input : Nat) : Option (Item × Script) :=
  match s.inputs[input]? with
  | some (i :: rest) => some (i, { s with inputs := s.inputs.set input rest })
  | _ => none

theorem Script.left_lt {s t : Script} {input : Nat} {i : Item} (h : s.next? input = some (i, t)) :
    t.left < s.left := by
  unfold Script.next? at h
  split at h
  · rename_i first rest found
    injection h with h
    injection h with _ same
    subst same
    have size : input < s.inputs.length := by
      rcases Nat.lt_or_ge input s.inputs.length with lt | ge
      · exact lt
      · rw [List.getElem?_eq_none ge] at found; cases found
    have here : s.inputs[input] = first :: rest := by
      rw [List.getElem?_eq_getElem size] at found; exact Option.some.inj found
    have split : s.inputs = s.inputs.take input ++ (first :: rest) :: s.inputs.drop (input + 1) := by
      rw [← here, List.getElem_cons_drop, List.take_append_drop]
    have after : s.inputs.set input rest
        = s.inputs.take input ++ rest :: s.inputs.drop (input + 1) :=
      List.set_eq_take_append_cons_drop.trans (by simp [size])
    simp only [Script.left]
    rw [after]
    conv => rhs; rw [split]
    simp
  · cases h

/-- Runs a stage against a script; `sent` are the rows that were taken, last first. -/
def runFrom (s : Stage) (script : Script) (sent : List Row) : Report :=
  match h : s.want with
  | .fail d => ⟨sent.reverse, .crashed d⟩
  | .receive input =>
    if script.cancelled then ⟨sent.reverse, .failed .cancelled⟩
    else
      match h' : script.next? input with
      | none => ⟨sent.reverse, .failed .producerStopped⟩
      | some (i, rest) =>
        have := Script.left_lt h'
        runFrom (s.accept i) rest sent
  | .send row after =>
    if script.cancelled then ⟨sent.reverse, .failed .cancelled⟩
    else
      have := Stage.held_lt_of_want_send h
      match script.take with
      | some 0 => ⟨sent.reverse, .failed .consumerClosed⟩
      | take => runFrom after { script with take := take.map (· - 1) } (row :: sent)
  | .close =>
    if script.cancelled then ⟨sent.reverse, .failed .cancelled⟩
    else if script.take = some 0 then ⟨sent.reverse, .failed .consumerClosed⟩
    else ⟨sent.reverse, .ok⟩
termination_by (script.left, s.held)
decreasing_by
  · exact Prod.Lex.left _ _ this
  · exact Prod.Lex.right _ this

/-- Runs a stage against a script from its beginning. -/
def run (s : Stage) (script : Script) : Report :=
  runFrom s script []

/-- How the output looked to the consumer. -/
inductive Ending where
  /-- It was closed. -/
  | closed
  /-- The consumer had taken enough and gone away. -/
  | taken
  /-- It stopped. -/
  | stopped (e : ChannelError)
deriving DecidableEq, Repr

/-- How the output of an operator that ended looked to the consumer. -/
def Report.ending (r : Report) (script : Script) : Ending :=
  if script.take = some r.rows.length then .taken
  else
    match r.outcome with
    | .ok => .closed
    | _ => .stopped (if script.cancelled then .cancelled else .producerStopped)

end Trial

end StreamQuery
