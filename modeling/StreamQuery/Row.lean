/-
Rows, and what travels through a channel.

A row is a list of values.  A stream of rows is closed by a mark that is no row: the row without
fields is still a row.  `Item` is one thing a stream can hold, a row or the closing mark.  Rows are
stored as items too: nothing keeps a closing mark out of a table, and only a worker that is to send
it finds out.
-/
import StreamQuery.Value

namespace StreamQuery

/-- A row of data. -/
abbrev Row := List Value

/-- The text of a row: each field followed by a tab. -/
def Row.render (r : Row) : String :=
  String.join (r.map fun v => v.render ++ "\t")

/-- One thing a stream can hold. -/
inductive Item where
  /-- A row of data. -/
  | row (r : Row)
  /-- The mark that no row follows. -/
  | endOfStream
deriving DecidableEq, Repr

namespace Item

/-- The fields of an item; the closing mark has none. -/
def fields : Item → Row
  | .row r => r
  | .endOfStream => []

/-- Whether an item is the closing mark. -/
def isEnd : Item → Bool
  | .row _ => false
  | .endOfStream => true

/-- The row of the fields of one item followed by those of another. -/
def append (a b : Item) : Item :=
  .row (a.fields ++ b.fields)

/-- How many fields an item has. -/
def width (i : Item) : Nat :=
  i.fields.length

/-- The text of an item. -/
def render : Item → String
  | .row r => r.render
  | .endOfStream => "<end of stream>"

/-- Items without a mark among them are rows. -/
theorem map_row_fields {items : List Item} (h : .endOfStream ∉ items) :
    (items.map fields).map .row = items := by
  rw [List.map_map]
  refine (List.map_congr_left fun i hi => ?_).trans (List.map_id items)
  cases i with
  | row r => rfl
  | endOfStream => exact absurd hi h

theorem not_mem_map_row (rows : List Row) : .endOfStream ∉ rows.map Item.row := by
  intro h
  obtain ⟨r, -, hr⟩ := List.mem_map.mp h
  cases hr

end Item

/-- The sum of numbers. -/
def total (ns : List Nat) : Nat :=
  ns.foldr (· + ·) 0

theorem total_cons (n : Nat) (ns : List Nat) : total (n :: ns) = n + total ns := rfl

theorem total_perm {ms ns : List Nat} (h : ms.Perm ns) : total ms = total ns :=
  h.sum_nat

/-- A list without its first element equal to `x`, the last element taking the free place; none
when `x` is not in the list. -/
def swapRemove {α : Type} [DecidableEq α] (x : α) (ys : List α) : Option (List α) :=
  match ys.idxOf? x with
  | none => none
  | some i =>
    match ys.getLast? with
    | none => none
    | some last => some ((ys.set i last).dropLast)

/-- Whether two lists hold the same elements, each as often, in any order. -/
def sameElements {α : Type} [DecidableEq α] (xs ys : List α) : Bool :=
  xs.length == ys.length && go xs ys
where
  /-- Takes the elements of the first list out of the second, one after the other. -/
  go : List α → List α → Bool
    | [], ys => ys.isEmpty
    | x :: xs, ys =>
      match swapRemove x ys with
      | none => false
      | some rest => go xs rest

end StreamQuery
