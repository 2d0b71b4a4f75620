/-
Schemas with an index of their names.

A heading holds the columns of a table and, beside them, a map from names to positions, so that a
column is found by its name without looking through the others.  The map is made whenever a heading
is: the columns are gone through in order, and a name that comes again takes the place of the one
before.  A record inside a column has a heading of its own.

Two headings are compared in all that they hold, the maps included.
-/
import StreamQuery.Json.Schema

namespace StreamQuery

/-- A map from names to positions.  No name has two of them. -/
structure NameIndex where
  entries : List (String × Nat)
  distinct : (entries.map Prod.fst).Nodup

namespace NameIndex

/-- The map without names. -/
def empty : NameIndex := ⟨[], .nil⟩

/-- The position of a name. -/
def find? (x : NameIndex) (name : String) : Option Nat :=
  x.entries.lookup name

theorem distinct_insert {entries : List (String × Nat)} (h : (entries.map Prod.fst).Nodup)
    (name : String) (i : Nat) :
    (((name, i) :: entries.filter fun e => e.1 != name).map Prod.fst).Nodup := by
  rw [List.map_cons, List.nodup_cons]
  refine ⟨fun hmem => ?_, h.sublist (List.filter_sublist.map _)⟩
  obtain ⟨e, he, hname⟩ := List.mem_map.mp hmem
  simpa [hname] using (List.mem_filter.mp he).2

/-- Gives a name a position in place of the one that it had. -/
def insert (x : NameIndex) (name : String) (i : Nat) : NameIndex where
  entries := (name, i) :: x.entries.filter fun e => e.1 != name
  distinct := distinct_insert x.distinct name i

/-- Whether two maps have the same names with the same positions: they have equally many, and those
of the first are in the second. -/
def same (x y : NameIndex) : Bool :=
  x.entries.length == y.entries.length && x.entries.all fun e => y.find? e.1 == some e.2

end NameIndex

mutual
/-- The type of a column. -/
inductive ColumnType where
  | null
  | int
  | bool
  | string
  /-- A record with a value for each of its columns. -/
  | struct (heading : Heading)
  /-- A record that is still being built. -/
  | unresolved (key : TypeKey)
/-- A named, typed column. -/
structure Column where
  name : String
  type : ColumnType
/-- The columns of a table, in order, with an index of their names. -/
structure Heading where
  columns : List Column
  index : NameIndex
end

namespace Heading

/-- Enters the names of columns that stand from position `i` on. -/
def enter : List Column → Nat → NameIndex → NameIndex
  | [], _, index => index
  | c :: rest, i, index => enter rest (i + 1) (index.insert c.name i)

/-- The heading of columns. -/
def new (columns : List Column) : Heading :=
  ⟨columns, enter columns 0 .empty⟩

/-- The heading of names and types; what one list has beyond the other is left out. -/
def ofLists (names : List String) (types : List ColumnType) : Heading :=
  new (names.zipWith Column.mk types)

/-- The heading without columns. -/
def empty : Heading := new []

/-- The columns of one heading followed by those of another. -/
def merge (s t : Heading) : Heading :=
  new (s.columns ++ t.columns)

/-- How many columns there are. -/
def size (s : Heading) : Nat :=
  s.columns.length

/-- The position that the index has for a name. -/
def indexOf? (s : Heading) (name : String) : Option Nat :=
  s.index.find? name

end Heading

mutual
/-- Whether two types of columns are the same. -/
def ColumnType.same : ColumnType → ColumnType → Bool
  | .null, .null => true
  | .int, .int => true
  | .bool, .bool => true
  | .string, .string => true
  | .struct ⟨cs, x⟩, .struct ⟨ds, y⟩ => Column.sameAll cs ds && x.same y
  | .unresolved k, .unresolved l => k == l
  | _, _ => false
/-- Whether two lists of columns are the same. -/
def Column.sameAll : List Column → List Column → Bool
  | [], [] => true
  | ⟨n, t⟩ :: cs, ⟨m, u⟩ :: ds => n == m && ColumnType.same t u && Column.sameAll cs ds
  | _, _ => false
end

/-- Whether two headings are the same, columns and index. -/
def Heading.same (s t : Heading) : Bool :=
  Column.sameAll s.columns t.columns && s.index.same t.index

/-! ### Headings and schemas -/

mutual
/-- A type without the indexes inside it. -/
def ColumnType.plain : ColumnType → DataType
  | .null => .null
  | .int => .int
  | .bool => .bool
  | .string => .string
  | .struct ⟨cs, _⟩ => .struct (Column.attributes cs)
  | .unresolved key => .unresolved key
/-- The attributes of columns. -/
def Column.attributes : List Column → List Attribute
  | [] => []
  | ⟨name, type⟩ :: rest => ⟨name, type.plain⟩ :: Column.attributes rest
end

/-- The schema that a heading is an index of. -/
def Heading.schema (s : Heading) : Schema :=
  Column.attributes s.columns

mutual
/-- A type with an index in every record inside it. -/
def ColumnType.ofPlain : DataType → ColumnType
  | .null => .null
  | .int => .int
  | .bool => .bool
  | .string => .string
  | .struct attributes => .struct (.new (Column.ofAttributes attributes))
  | .unresolved key => .unresolved key
/-- The columns of attributes. -/
def Column.ofAttributes : List Attribute → List Column
  | [] => []
  | ⟨name, type⟩ :: rest => ⟨name, ColumnType.ofPlain type⟩ :: Column.ofAttributes rest
end

/-- The heading of a schema, made anew at every level. -/
def Heading.ofSchema (s : Schema) : Heading :=
  .new (Column.ofAttributes s)

/-- The heading that a text holds: only the attributes are stored. -/
def Heading.ofJson? (j : Json) : Option Heading :=
  (Json.toSchema? j).map ofSchema

/-- What is stored of a heading. -/
def Heading.toJson (s : Heading) : Json :=
  Json.ofSchema s.schema

end StreamQuery
