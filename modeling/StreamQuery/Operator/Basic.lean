/-
The operators that run a query.

An operator reads items from its inputs and sends rows to its output.  Between two such calls it
is in a `Stage`, and the stage says what it wants next: to receive from an input, to send a row,
to close its output, or that it cannot go on because an expression has no value or because the row
that it is to send is the closing mark.  Nothing else about an operator can be seen from outside.

A stage can send only so many rows before it has to receive again; `Stage.held` bounds how many,
and every send makes it smaller.
-/
import StreamQuery.Channel.Basic
import StreamQuery.Expr.Scalar

namespace StreamQuery

/-- An operator. -/
inductive Operator where
  /-- Sends the given rows. -/
  | values (rows : List Item)
  /-- Sends the input rows on which the condition is true. -/
  | filter (condition : Scalar)
  /-- Sends, for each input row, the values of the expressions on it. -/
  | project (exprs : List Scalar)
  /-- Reads the whole right input and sends, for each left row and each right row, the pair if the
  condition is true on it. -/
  | join (condition : Scalar)
  /-- Sends the rows of the first input, then those of the second. -/
  | union
deriving Repr

/-- An operator was given the wrong number of inputs. -/
structure InputDefect where
  name : String
  wanted : Nat
  given : Nat
deriving DecidableEq, Repr

/-- The text of the defect. -/
def InputDefect.message (d : InputDefect) : String :=
  d.name ++ " expects " ++ String.ofList (Text.decimal d.wanted) ++ " inputs, got "
    ++ String.ofList (Text.decimal d.given)

/-- Why an operator cannot go on. -/
inductive RunDefect where
  /-- An expression has no value. -/
  | evaluation (d : EvalDefect)
  /-- What is to be sent as a row is none. -/
  | sending (d : SendDefect)
deriving Repr

/-- The text of a defect. -/
def RunDefect.message : RunDefect → String
  | .evaluation d => d.message
  | .sending d => d.message

/-- Where an operator is between two calls. -/
inductive Stage where
  /-- Rows are left to send. -/
  | values (rows : List Item)
  /-- A row may have been received and not judged yet. -/
  | filter (condition : Scalar) (row : Option Row)
  /-- A row may have been received and not been computed on yet. -/
  | project (exprs : List Scalar) (row : Option Row)
  /-- The right input is being read; its rows so far, last first. -/
  | buffer (condition : Scalar) (right : List Row)
  /-- A left row is being paired with the right rows in `rest`; before the first left row there
  are none. -/
  | pair (condition : Scalar) (right : List Row) (left : Row) (rest : List Row)
  /-- The first or the second input is being passed on; a row may have been received. -/
  | relay (second : Bool) (row : Option Row)
  /-- All rows are sent. -/
  | closing
deriving Repr

/-- What a stage wants next. -/
inductive Want where
  /-- An item of the input at a position. -/
  | receive (input : Nat)
  /-- To send a row and be in another stage afterwards. -/
  | send (row : Row) (after : Stage)
  /-- To close the output. -/
  | close
  /-- Nothing: it cannot go on. -/
  | fail (d : RunDefect)

namespace Operator

/-- The name of an operator. -/
def name : Operator → String
  | .values _ => "values"
  | .filter _ => "filter"
  | .project _ => "project"
  | .join _ => "join"
  | .union => "union"

/-- How many inputs an operator has. -/
def inputCount : Operator → Nat
  | .values _ => 0
  | .filter _ | .project _ => 1
  | .join _ | .union => 2

/-- The stage in which an operator begins. -/
def stage : Operator → Stage
  | .values rows => .values rows
  | .filter condition => .filter condition none
  | .project exprs => .project exprs none
  | .join condition => .buffer condition []
  | .union => .relay false none

/-- The stage in which an operator begins with a number of inputs. -/
def start (op : Operator) (inputs : Nat) : Except InputDefect Stage :=
  if inputs = op.inputCount then .ok op.stage
  else .error ⟨op.name, op.inputCount, inputs⟩

end Operator

namespace Stage

/-- The next pair of a left row on which the condition is true. -/
def nextPair (condition : Scalar) (right : List Row) (left : Row) : List Row → Want
  | [] => .receive 0
  | r :: rest =>
    match condition.isTrue (left ++ r) with
    | .error d => .fail (.evaluation d)
    | .ok true => .send (left ++ r) (.pair condition right left rest)
    | .ok false => nextPair condition right left rest

/-- What a stage wants next. -/
def want : Stage → Want
  | .values [] => .close
  | .values (.row r :: rest) => .send r (.values rest)
  | .values (.endOfStream :: _) => .fail (.sending .closingMark)
  | .filter _ none => .receive 0
  | .filter condition (some r) =>
    match condition.isTrue r with
    | .error d => .fail (.evaluation d)
    | .ok true => .send r (.filter condition none)
    | .ok false => .receive 0
  | .project _ none => .receive 0
  | .project exprs (some r) =>
    match exprs.mapM fun e => e.eval r with
    | .error d => .fail (.evaluation d)
    | .ok row => .send row (.project exprs none)
  | .buffer _ _ => .receive 1
  | .pair condition right left rest => nextPair condition right left rest
  | .relay second none => .receive (if second then 1 else 0)
  | .relay second (some r) => .send r (.relay second none)
  | .closing => .close

/-- The stage after an item was received. -/
def accept : Stage → Item → Stage
  | .filter condition _, .row r => .filter condition (some r)
  | .project exprs _, .row r => .project exprs (some r)
  | .buffer condition right, .row r => .buffer condition (r :: right)
  | .buffer condition right, .endOfStream => .pair condition right.reverse [] []
  | .pair condition right _ _, .row left => .pair condition right left right
  | .relay second _, .row r => .relay second (some r)
  | .relay false _, .endOfStream => .relay true none
  | _, .endOfStream => .closing
  | s, .row _ => s

/-- How many rows a stage can send at most before it receives again. -/
def held : Stage → Nat
  | .values rows => rows.length
  | .filter _ row | .project _ row | .relay _ row => if row.isSome then 1 else 0
  | .pair _ _ _ rest => rest.length
  | .buffer _ _ | .closing => 0

theorem nextPair_held {condition : Scalar} {right : List Row} {left : Row} {rest : List Row}
    {row : Row} {after : Stage} (h : nextPair condition right left rest = .send row after) :
    after.held < rest.length := by
  induction rest with
  | nil => simp [nextPair] at h
  | cons r rest ih =>
    simp only [nextPair] at h
    split at h
    · cases h
    · injection h with _ same
      subst same
      simp [held]
    · have := ih h
      simp only [List.length_cons]
      omega

/-- Stored rows are sent without asking for any input. -/
theorem want_values_ne_receive {items : List Item} {input : Nat} :
    (Stage.values items).want ≠ .receive input := by
  match items with
  | [] => nofun
  | .row r :: rest => nofun
  | .endOfStream :: rest => nofun

/-- A send leaves fewer rows to send. -/
theorem held_lt_of_want_send {s after : Stage} {row : Row} (h : s.want = .send row after) :
    after.held < s.held := by
  cases s with
  | values rows =>
    match rows with
    | [] => simp [want] at h
    | .row r :: rest => simp only [want, Want.send.injEq] at h; simp [← h.2, held]
    | .endOfStream :: rest => simp [want] at h
  | filter c row =>
    cases row with
    | none => simp [want] at h
    | some r =>
      simp only [want] at h
      split at h
      · cases h
      · injection h with _ same; subst same; simp [held]
      · cases h
  | project es row =>
    cases row with
    | none => simp [want] at h
    | some r =>
      simp only [want] at h
      split at h
      · cases h
      · injection h with _ same; subst same; simp [held]
  | buffer c right => simp [want] at h
  | pair c right left rest => exact nextPair_held (by simpa [want] using h)
  | relay second row =>
    cases row with
    | none => simp [want] at h
    | some r => simp only [want, Want.send.injEq] at h; simp [← h.2, held]
  | closing => simp [want] at h

end Stage

end StreamQuery
