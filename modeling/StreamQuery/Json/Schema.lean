/-
Types, schemas and tables as JSON.

A primitive type is written by its name, a record type as an object with the key `Struct`, and a
placeholder as an object with the key `Unresolved`.  A schema is an array of attributes.  A row is
an array of its fields, so a stored closing mark is written as if it were the row without fields.
-/
import StreamQuery.Catalog
import StreamQuery.Json.Decode
import StreamQuery.Schema

namespace StreamQuery.Json

/-- A key of a type. -/
def toTypeKey? (j : Json) : Option TypeKey :=
  match fields? ["id"] j with
  | some [some id] => (toWord? id).map TypeKey.mk
  | _ => none

/-- The primitive type of a written name. -/
def primitive? : String → Option DataType
  | "Null" => some .null
  | "Int" => some .int
  | "Bool" => some .bool
  | "String" => some .string
  | _ => none

mutual
/-- A type. -/
def toDataType? : Json → Option DataType
  | .str name => primitive? name
  | .obj [(name, j)] =>
    if name = "Struct" then
      match j with
      | .arr items => (toAttributes? items).map .struct
      | _ => none
    else if name = "Unresolved" then (toTypeKey? j).map .unresolved
    else
      match j with
      | .null => primitive? name
      | _ => none
  | _ => none
/-- A named, typed column. -/
def toAttribute? : Json → Option Attribute
  | .arr [name, type] =>
    match toText? name, toDataType? type with
    | some n, some t => some ⟨n, t⟩
    | _, _ => none
  | .obj members =>
    match onlyMember? "name" members, memberTypes? members with
    | some (some (.str n)), some [t] => some ⟨n, t⟩
    | _, _ => none
  | _ => none
/-- The types among the members of a column. -/
def memberTypes? : List (String × Json) → Option (List DataType)
  | [] => some []
  | (key, j) :: rest =>
    if key = "dtype" then
      match toDataType? j, memberTypes? rest with
      | some t, some ts => some (t :: ts)
      | _, _ => none
    else memberTypes? rest
/-- A list of columns. -/
def toAttributes? : List Json → Option (List Attribute)
  | [] => some []
  | j :: js =>
    match toAttribute? j, toAttributes? js with
    | some a, some as => some (a :: as)
    | _, _ => none
end

/-- A schema. -/
def toSchema? : Json → Option Schema
  | .arr items => toAttributes? items
  | _ => none

/-- The JSON of a key of a type. -/
def ofTypeKey (key : TypeKey) : Json :=
  .obj [("id", ofWord key.id)]

mutual
/-- The JSON of a type. -/
def ofDataType : DataType → Json
  | .null => .str "Null"
  | .int => .str "Int"
  | .bool => .str "Bool"
  | .string => .str "String"
  | .struct attributes => .obj [("Struct", .arr (ofAttributes attributes))]
  | .unresolved key => .obj [("Unresolved", ofTypeKey key)]
/-- The JSON of each column of a list. -/
def ofAttributes : List Attribute → List Json
  | [] => []
  | ⟨name, type⟩ :: rest =>
    .obj [("dtype", ofDataType type), ("name", .str name)] :: ofAttributes rest
end

/-- The JSON of a schema. -/
def ofSchema (s : Schema) : Json :=
  .arr (ofAttributes s)

/-! ### Rows and tables -/

/-- The JSON of a row. -/
def ofRow (r : Row) : Json :=
  .arr (ofValues r)

/-- The JSON of rows. -/
def ofRows (rows : List Row) : Json :=
  .arr (rows.map ofRow)

/-- Stored rows; nothing that is read is a closing mark. -/
def toStored? (j : Json) : Option (List Item) :=
  (toList? toRow? j).map fun rows => rows.map .row

/-- The JSON of stored rows. -/
def ofStored (items : List Item) : Json :=
  ofRows (items.map Item.fields)

/-- A table with its number; the rows may be missing. -/
def toTable? (j : Json) : Option Table :=
  match fields? ["name", "id", "schema", "rows"] j with
  | some [some name, some id, some schema, rows] => do
    let contents ← match rows with
      | some list => toStored? list
      | none => some []
    some ⟨← toText? name, ← toWord? id, ← toSchema? schema, contents⟩
  | _ => none

/-- The JSON of a table. -/
def ofTable (t : Table) : Json :=
  .obj [("id", ofWord t.id), ("name", .str t.name), ("rows", ofStored t.rows),
    ("schema", ofSchema t.schema)]

/-- The JSON of a catalog, which leaves its tables out. -/
def ofCatalog (c : Catalog) : Json :=
  .obj [("name", .str c.name)]

end StreamQuery.Json
