/-
Tables and the catalog that finds them.

A table is known by a number, which is the hash of its name unless it was given another one.  A
catalog holds at most one table of a number; adding a second replaces the first.
-/
import StreamQuery.Row
import StreamQuery.Schema

namespace StreamQuery

/-- A table with its rows, in the order in which they were put in. -/
structure Table where
  name : String
  id : UInt64
  schema : Schema
  rows : List Item
deriving Repr

/-- The number that a table has by its name. -/
def Table.idOf (name : String) : UInt64 :=
  SipHash.nameId name

/-- A table under the number of its name. -/
def Table.named (name : String) (schema : Schema) (rows : List Item) : Table :=
  ⟨name, Table.idOf name, schema, rows⟩

/-- The tables that queries can read. -/
structure Catalog where
  name : String
  tables : List Table
deriving Repr

namespace Catalog

/-- A catalog without tables. -/
def empty (name : String) : Catalog := ⟨name, []⟩

/-- Adds a table in place of the one with its number. -/
def add (c : Catalog) (t : Table) : Catalog :=
  { c with tables := t :: c.tables.filter fun u => u.id != t.id }

/-- The table of a number. -/
def table? (c : Catalog) (id : UInt64) : Option Table :=
  c.tables.find? fun t => t.id == id

/-- The table of a name, looked up by the number of the name. -/
def named? (c : Catalog) (name : String) : Option Table :=
  c.table? (Table.idOf name)

/-- A catalog of the same name as it is stored: its tables are not stored with it. -/
def stored (c : Catalog) : Catalog :=
  empty c.name

end Catalog

end StreamQuery
