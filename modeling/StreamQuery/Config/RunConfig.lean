/-
What a run of the program is told: the plan, the tables and where they are, the record types and
the form of the output.
-/
import StreamQuery.Config.Definition
import StreamQuery.Json.Decode
import StreamQuery.Json.Reader

namespace StreamQuery

namespace Config

/-- The form of the output. -/
inductive OutputFormat where
  | table
  | json
deriving DecidableEq, Repr

/-- The format of a name, in any case of its letters. -/
def OutputFormat.ofName (name : String) : Except ConfigFault OutputFormat :=
  let word := String.ofList (Text.lower name.toList)
  match word with
  | "table" => .ok .table
  | "json" => .ok .json
  | _ => .error (.unknownFormat word)

/-- The name of a format. -/
def OutputFormat.name : OutputFormat → String
  | .table => "table"
  | .json => "json"

/-- A table, the file it is loaded from and its columns. -/
structure TableConfig where
  name : String
  path : String
  columns : String
deriving DecidableEq, Repr

/-- What a run is told. -/
structure RunConfig where
  plan : String
  tables : List TableConfig
  format : OutputFormat
  types : List Descriptor
deriving DecidableEq, Repr

namespace RunConfig

/-- The configured tables, each with the first schema of its name. -/
def tablesOf (schemas : List (List Char × List Char)) :
    List String → Except ConfigFault (List TableConfig)
  | [] => .ok []
  | table :: rest => do
    let (name, path) ← splitAssignment table.toList
    match schemas.find? fun s => s.1 = name with
    | none => throw (.noSchema (String.ofList name))
    | some s =>
      let more ← tablesOf schemas rest
      return ⟨String.ofList name, String.ofList path, String.ofList s.2⟩ :: more

/-- A configuration from assignments of tables to files, of tables to columns, and definitions of
types.  All schemas are split before the first table is looked at, and the types come last. -/
def ofFlags (plan : String) (tables schemas types : List String) (format : OutputFormat) :
    Except ConfigFault RunConfig := do
  let schemas ← schemas.mapM fun s => splitAssignment s.toList
  let tables ← tablesOf schemas tables
  let types ← types.mapM parseType
  return ⟨plan, tables, format, types⟩

/-- The configured record types. -/
def factory (c : RunConfig) : TypeFactory :=
  .ofList c.types

end RunConfig

end Config

namespace Json

open Config

/-- A field of a described type: its name and the name of its type. -/
def toFieldPair? : Json → Option (String × String)
  | .arr [.str name, .str type] => some (name, type)
  | _ => none

/-- The description of a record type. -/
def toDescriptor? (j : Json) : Option Descriptor :=
  match fields? ["name", "fields"] j with
  | some [some name, some fields] => do
    some ⟨← toText? name, ← toList? toFieldPair? fields⟩
  | _ => none

/-- A configured table. -/
def toTableConfig? (j : Json) : Option TableConfig :=
  match fields? ["name", "path", "columns"] j with
  | some [some name, some path, some columns] => do
    some ⟨← toText? name, ← toText? path, ← toText? columns⟩
  | _ => none

/-- An output format by its exact name. -/
def toFormat? (j : Json) : Option OutputFormat :=
  match j.plainChoice? with
  | some "table" => some .table
  | some "json" => some .json
  | _ => none

/-- A field of a record that may be missing. -/
def orDefault {α : Type} (f : Json → Option α) (given : α) : Option Json → Option α
  | some j => f j
  | none => some given

/-- A configuration.  Only the plan has to be given. -/
def toRunConfig? (j : Json) : Option RunConfig :=
  match fields? ["plan", "tables", "format", "types"] j with
  | some [some plan, tables, format, types] => do
    some {
      plan := ← toText? plan
      tables := ← orDefault (toList? toTableConfig?) [] tables
      format := ← orDefault toFormat? .table format
      types := ← orDefault (toList? toDescriptor?) [] types }
  | _ => none

/-- The JSON of a description. -/
def ofDescriptor (d : Descriptor) : Json :=
  .obj [("fields", .arr (d.fields.map fun f => .arr [.str f.1, .str f.2])), ("name", .str d.name)]

end Json

namespace Config

/-- The configuration that a file holds. -/
def RunConfig.ofText (text : List Char) : Except ConfigFault RunConfig :=
  match Json.read text >>= Json.toRunConfig? with
  | some c => .ok c
  | none => .error .notReadable

end Config

end StreamQuery
