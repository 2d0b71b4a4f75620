/-
Definitions of tables and types as short texts.

An assignment is a name, an equals sign and a value.  A list of columns is made of pieces between
commas, each a name, a colon and the name of a type; pieces with nothing on them do not count.
Blanks around every part are dropped.
-/
import StreamQuery.Text.Basic
import StreamQuery.Types.Scope

namespace StreamQuery.Config

/-- What is wrong with a configuration. -/
inductive ConfigFault where
  /-- A text is no assignment. -/
  | notAssignment (text : String)
  /-- A record type has no fields. -/
  | noFields (type : String)
  /-- A column has a type that is not known. -/
  | unknownColumnType (type column : String)
  /-- A table has no columns. -/
  | noColumns
  /-- A table has no schema. -/
  | noSchema (table : String)
  /-- There is no output format of this name. -/
  | unknownFormat (name : String)
  /-- A configuration file does not hold a configuration. -/
  | notReadable
deriving DecidableEq, Repr

/-- The text of a fault.  What the JSON reader would say about a file is left out. -/
def ConfigFault.message : ConfigFault → String
  | .notAssignment text => "Expected NAME=VALUE, got " ++ text
  | .noFields type => "Type " ++ type ++ " has no fields"
  | .unknownColumnType type column => "Unknown column type " ++ type ++ " for " ++ column
  | .noColumns => "Empty column list"
  | .noSchema table => "No --schema given for table " ++ table
  | .unknownFormat name => "Unknown output format " ++ name
  | .notReadable => "JSON: *"

/-- The name and the value of an assignment.  The name must not be blank. -/
def splitAssignment (text : List Char) : Except ConfigFault (List Char × List Char) :=
  match Text.cut '=' text with
  | (name, some value) =>
    if (Text.trim name).isEmpty then .error (.notAssignment (String.ofList text))
    else .ok (Text.trim name, Text.trim value)
  | (_, none) => .error (.notAssignment (String.ofList text))

/-- The name and the type of one column; a column without a colon has no type. -/
def splitColumn (text : List Char) : List Char × List Char :=
  let (name, type) := Text.cut ':' text
  (Text.trim name, Text.trim (type.getD []))

/-- The names and types of a list of columns. -/
def splitColumns (text : List Char) : List (List Char × List Char) :=
  ((Text.pieces ',' text).filter fun p => !(Text.trim p).isEmpty).map splitColumn

/-- The record type of a definition such as `Point=x:int,y:int`. -/
def parseType (definition : String) : Except ConfigFault Descriptor := do
  let (name, fields) ← splitAssignment definition.toList
  match splitColumns fields with
  | [] => throw (.noFields (String.ofList name))
  | columns =>
    return ⟨String.ofList name, columns.map fun c => (String.ofList c.1, String.ofList c.2)⟩

/-- The columns of names and types, built one after the other up to the first type that is not
known. -/
def buildColumns (types : TypeFactory) :
    List (List Char × List Char) → Binding → Except ConfigFault Schema × Binding
  | [], b => (.ok [], b)
  | (name, type) :: rest, b =>
    match Binding.withResolver (types.createType (String.ofList type)) b with
    | (.error _, b) =>
      (.error (.unknownColumnType (String.ofList type) (String.ofList name)), b)
    | (.ok t, b) =>
      match buildColumns types rest b with
      | (.error e, b) => (.error e, b)
      | (.ok columns, b) => (.ok (⟨String.ofList name, t⟩ :: columns), b)

/-- The schema of a list of columns such as `id:int,at:Point`. -/
def parseSchema (types : TypeFactory) (columns : String) (b : Binding) :
    Except ConfigFault Schema × Binding :=
  match buildColumns types (splitColumns columns.toList) b with
  | (.ok [], b) => (.error .noColumns, b)
  | result => result

end StreamQuery.Config
