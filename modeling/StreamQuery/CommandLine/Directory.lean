/-
A directory of files held in memory, and the files that paths lead to.

A path is followed name by name.  An empty name and a dot stay where they are, two dots lead up, and
nothing leads on from a file, so a path that ends in a slash never leads to one.  Above the directory
there are only directories, and none of the names in them is known.
-/
import StreamQuery.Failure
import StreamQuery.Text.Basic

namespace StreamQuery.CommandLine

/-- How many bytes a name may have. -/
def maxName : Nat := 255

/-- How many bytes a path may have. -/
def maxPath : Nat := 4095

/-- The names of a path. -/
def pathNames (path : String) : List String :=
  (Text.pieces '/' path.toList).map String.ofList

/-- Files, each under its path from the directory. -/
structure Directory where
  files : List (List String × List UInt8)

/-- Where a path has led to. -/
inductive Place where
  | file (bytes : List UInt8)
  /-- The directory at the end of these names. -/
  | inside (path : List String)
  /-- A directory above. -/
  | above

namespace Directory

/-- The directory of named files; a name with slashes leads through directories. -/
def ofList (files : List (String × List UInt8)) : Directory :=
  ⟨files.map fun f => ((pathNames f.1).filter fun n => n ≠ "" ∧ n ≠ ".", f.2)⟩

/-- What stands at the end of names, if anything does. -/
def place? (d : Directory) (path : List String) : Option Place :=
  match d.files.lookup path with
  | some bytes => some (.file bytes)
  | none => if d.files.any fun f => path.isPrefixOf f.1 then some (.inside path) else none

/-- Follows one name. -/
def follow (d : Directory) (p : Place) (name : String) : Except FileFault Place :=
  match p with
  | .file _ => .error .notDirectory
  | .inside path =>
    if name = "" ∨ name = "." then .ok p
    else if name = ".." then .ok (if path.isEmpty then .above else .inside path.dropLast)
    else if maxName < name.utf8ByteSize then .error .nameTooLong
    else match d.place? (path ++ [name]) with
      | some next => .ok next
      | none => .error .notFound
  | .above =>
    if name = "" ∨ name = "." ∨ name = ".." then .ok p
    else if maxName < name.utf8ByteSize then .error .nameTooLong
    else .error .notFound

/-- Where a path begins. -/
def start (path : String) : Place :=
  if path.toList.head? = some '/' then .above else .inside []

/-- The bytes of the file that a path leads to. -/
def read (d : Directory) (path : String) : Except FileFault (List UInt8) := do
  if '\x00' ∈ path.toList then throw .nulInPath
  if path.isEmpty then throw .notFound
  if maxPath < path.utf8ByteSize then throw .nameTooLong
  match ← (pathNames path).foldlM d.follow (start path) with
  | .file bytes => return bytes
  | _ => throw .isDirectory

end Directory

end StreamQuery.CommandLine
