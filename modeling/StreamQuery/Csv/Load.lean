/-
Rows of values out of comma-separated text.

Every record has to be as wide as the first one and as the schema, and every field has to be
readable at the type of its column.  A field with nothing in it, or with the word null, is null,
except in a column of strings, where every text stands for itself.  A field of a record type holds
a JSON array with one element for each field.  The first fault is reported and no row is loaded.
-/
import StreamQuery.Csv.Record
import StreamQuery.Json.Decode
import StreamQuery.Json.Reader
import StreamQuery.Row
import StreamQuery.Schema

namespace StreamQuery.Csv

/-- Why a field cannot be read at a type. -/
inductive FieldFault where
  | notInteger (field : String)
  | notBoolean (field : String)
  | notRecord (field : String)
  /-- No field can be read at this type. -/
  | notLoadable (type : DataType)
  /-- A nested row has more or fewer fields than its type. -/
  | recordWidth (value : Value) (given wanted : Nat)
  /-- A value is of another type. -/
  | misfit (value : Value) (type : DataType)
deriving Repr

/-- A number in decimal, as a string. -/
def number (n : Nat) : String :=
  String.ofList (Text.decimal n)

/-- The text of a fault.  What the JSON reader would say about a field is left out. -/
def FieldFault.message : FieldFault → String
  | .notInteger field => field ++ " is not an integer"
  | .notBoolean field => field ++ " is not a boolean"
  | .notRecord field => field ++ " is not a record: *"
  | .notLoadable type => "columns of type " ++ type.digest ++ " cannot be loaded"
  | .recordWidth value given wanted =>
    "record " ++ value.render ++ " has " ++ number given ++ " fields, expected " ++ number wanted
  | .misfit value type => value.render ++ " does not fit " ++ type.digest

/-- Why a text cannot be loaded. -/
inductive LoadFault where
  /-- A record has another width than the first one. -/
  | ragged (record : Nat) (start : Position) (given first : Nat)
  /-- A field is no text. -/
  | notText (record : Nat) (start : Position) (position validUpTo : Nat)
  /-- A record has another width than the schema; records are counted from one. -/
  | width (record given wanted : Nat)
  /-- A field of a record cannot be read; records are counted from one. -/
  | field (record : Nat) (fault : FieldFault)
deriving Repr

/-- The text of a fault. -/
def LoadFault.message : LoadFault → String
  | .ragged record start given first =>
    "CSV: CSV error: record " ++ number record ++ " (line: " ++ number start.line ++ ", byte: "
      ++ number start.byte ++ "): found record with " ++ number given
      ++ " fields, but the previous record has " ++ number first ++ " fields"
  | .notText record start position validUpTo =>
    "CSV: CSV parse error: record " ++ number record ++ " (line " ++ number start.line
      ++ ", field: " ++ number position ++ ", byte: " ++ number start.byte
      ++ "): invalid utf-8: invalid UTF-8 in field " ++ number position ++ " near byte index "
      ++ number validUpTo
  | .width record given wanted =>
    "record " ++ number record ++ " has " ++ number given ++ " fields, expected " ++ number wanted
  | .field record fault => "record " ++ number record ++ ": " ++ fault.message

mutual
/-- Checks that a value has the shape of a type; null fits every type. -/
def check : Value → DataType → Except FieldFault Unit
  | .null, _ => .ok ()
  | .int _, .int => .ok ()
  | .bool _, .bool => .ok ()
  | .string _, .string => .ok ()
  | .row fields, .struct attributes =>
    if fields.length = attributes.length then checkAll fields attributes
    else .error (.recordWidth (.row fields) fields.length attributes.length)
  | v, t => .error (.misfit v t)
/-- Checks the values of a row one after the other. -/
def checkAll : List Value → List Attribute → Except FieldFault Unit
  | v :: vs, a :: as => do
    check v a.type
    checkAll vs as
  | _, _ => .ok ()
end

/-- The truth value that a word in lower case stands for. -/
def truthValue? (word : String) : Option Bool :=
  match word with
  | "true" | "t" | "1" => some true
  | "false" | "f" | "0" => some false
  | _ => none

/-- The value of a field at a type. -/
def readField (type : DataType) (field : List Char) : Except FieldFault Value :=
  match type with
  | .string => .ok (.string (String.ofList field))
  | type =>
    let word := Text.trim field
    if word.isEmpty || Text.lower word = ['n', 'u', 'l', 'l'] then .ok .null
    else
      match type with
      | .int =>
        match Text.readSigned word with
        | some n => .ok (.int n)
        | none => .error (.notInteger (String.ofList field))
      | .bool =>
        match truthValue? (String.ofList (Text.lower word)) with
        | some b => .ok (.bool b)
        | none => .error (.notBoolean (String.ofList field))
      | .struct attributes =>
        match Json.read word >>= Json.toValue? with
        | some v => do
          check v (.struct attributes)
          return v
        | none => .error (.notRecord (String.ofList field))
      | other => .error (.notLoadable other)

/-- The fields of a record as texts; the first that is none is named with the length of its
readable beginning. -/
def texts (record : Nat) (start : Position) (i : Nat) :
    List (List UInt8) → Except LoadFault (List (List Char))
  | [] => .ok []
  | bytes :: rest =>
    match Text.Utf8.decode bytes with
    | .error validUpTo => .error (.notText record start i validUpTo)
    | .ok cs => do
      let more ← texts record start (i + 1) rest
      return cs :: more

/-- The values of the fields of a record. -/
def readFields : List Attribute → List (List Char) → Except FieldFault Row
  | a :: as, field :: rest => do
    let v ← readField a.type field
    let vs ← readFields as rest
    return v :: vs
  | _, _ => .ok []

/-- The row of a record whose fields are texts. -/
def readRecord (schema : Schema) (record : Nat) (fields : List (List Char)) :
    Except LoadFault Row :=
  if fields.length = schema.length then (readFields schema fields).mapError (.field record)
  else .error (.width record fields.length schema.length)

/-- The rows of records from number `i` on, `width` being the width of the first of all. -/
def loadFrom (schema : Schema) (width i : Nat) : List RawRecord → Except LoadFault (List Row)
  | [] => .ok []
  | r :: rest => do
    if r.fields.length != width then throw (.ragged i r.start r.fields.length width)
    let fields ← texts i r.start 0 r.fields
    let row ← readRecord schema (i + 1) fields
    let rows ← loadFrom schema width (i + 1) rest
    return row :: rows

/-- The rows of a text. -/
def load (schema : Schema) (bytes : List UInt8) : Except LoadFault (List Row) :=
  match records bytes with
  | [] => .ok []
  | r :: rest => loadFrom schema r.fields.length 0 (r :: rest)

end StreamQuery.Csv
