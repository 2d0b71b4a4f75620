/-
The answer of a query, as a table of text and as JSON.
-/
import StreamQuery.Json.Printer
import StreamQuery.Json.Schema

namespace StreamQuery

/-- The rows of an answer and their schema. -/
structure QueryResult where
  schema : Schema
  rows : List Row
deriving Repr

namespace QueryResult

/-- The answer without columns and rows. -/
def empty : QueryResult := ⟨[], []⟩

/-- The width of every column: the longest name in bytes, or ten without a name, but at least
eight, and two more. -/
def width (r : QueryResult) : Nat :=
  let longest := match (r.schema.map fun a => a.name.utf8ByteSize).max? with
    | some n => n
    | none => 10
  max longest 8 + 2

/-- A text with blanks behind it up to a number of characters; a longer one stays whole. -/
def pad (width : Nat) (s : String) : String :=
  s ++ String.ofList (List.replicate (width - s.length) ' ')

/-- One line of cells. -/
def line (width : Nat) (cells : List String) : String :=
  String.join (cells.map (pad width)) ++ "\n"

/-- The answer as lines of text, the names of the columns first. -/
def table (r : QueryResult) : String :=
  line r.width (r.schema.map Attribute.name)
    ++ String.join (r.rows.map fun row => line r.width (row.map Value.render))

/-- The answer as JSON: the names of the columns and the rows. -/
def toJson (r : QueryResult) : Json :=
  .obj [("columns", .arr (r.schema.map fun a => .str a.name)), ("rows", Json.ofRows r.rows)]

end QueryResult

end StreamQuery
