/-
A run of the program.

The tables are loaded one after the other, all in one scope, so that a record type that several
tables use is built once; then the plan is read and run and its answer is written.  How files are
read is left to the caller, so a run can be looked at without a file system.
-/
import StreamQuery.CommandLine.Arguments
import StreamQuery.Config.RunConfig
import StreamQuery.Failure
import StreamQuery.Json.Plan

namespace StreamQuery.CommandLine

open Config

/-- Reads the bytes of a file. -/
abbrev Reader (m : Type → Type) := String → m (Except FileFault (List UInt8))

variable {m : Type → Type} [Monad m]

/-- Reads a file of text. -/
def readText (files : Reader m) (path : String) : m (Except FileFault (List Char)) := do
  match ← files path with
  | .error f => return .error f
  | .ok bytes =>
    match Text.Utf8.decode bytes with
    | .ok text => return .ok text
    | .error _ => return .error .notText

/-- Loads a table.  A directory is found like a file and only fails as a table. -/
def loadTable (files : Reader m) (t : TableConfig) (schema : Schema) :
    m (Except Failure Table) := do
  match ← files t.path with
  | .error .isDirectory => return .error .tableIsDirectory
  | .error f => return .error (.file f)
  | .ok bytes =>
    match Csv.load schema bytes with
    | .error f => return .error (.load f)
    | .ok rows => return .ok (.named t.name schema (rows.map .row))

/-- Loads tables into a catalog, one after the other. -/
def loadTables (files : Reader m) (types : TypeFactory) :
    List TableConfig → Catalog → Binding → m (Except Failure Catalog)
  | [], c, _ => return .ok c
  | t :: rest, c, b => do
    match parseSchema types t.columns b with
    | (.error f, _) => return .error (.config f)
    | (.ok schema, b) =>
      match ← loadTable files t schema with
      | .error f => return .error f
      | .ok table => loadTables files types rest (c.add table) b

/-- Reads a plan from its text. -/
def readPlan (text : List Char) : Except Failure Plan :=
  match Plan.ofText? text with
  | none => .error .planText
  | some plan => .ok plan

/-- Runs a plan on the tables of a catalog. -/
def query (c : Catalog) (p : Plan) : Except RunError (QueryResult × Nat) :=
  match p.assemble c with
  | .error e => .error (.ofBuild e)
  | .ok a =>
    match (Executor.new.configure a).call .execute with
    | (_, .result r) => .ok (r, a.tasks.length)
    | (_, .failed e) => .error (.failed (.query e))
    | (_, .crashed d) => .error (.crashed (.running d))
    | _ => .error (.crashed .stuck)

/-- The output of an answer. -/
def render (format : OutputFormat) (r : QueryResult) : String :=
  match format with
  | .table => r.table
  | .json => r.toJson.pretty

/-- Runs a configuration to its output. -/
def run (files : Reader m) (c : RunConfig) : m (Except RunError String) := do
  match ← loadTables files c.factory c.tables (.empty "cli") (some .empty) with
  | .error f => return .error (.failed f)
  | .ok catalog =>
    match ← readText files c.plan with
    | .error f => return .error (.failed (.file f))
    | .ok text =>
      match readPlan text with
      | .error f => return .error (.failed f)
      | .ok plan => return (query catalog plan).map fun r => render c.format r.1

/-- How the program ends: its exit code, what it writes, and the text of the failure if there was
one. -/
structure Ending where
  exitCode : UInt8
  output : String
  failure : Option String
deriving DecidableEq, Repr

/-- How the program ends after a run. -/
def Ending.ofRun : Except RunError String → Ending
  | .ok output => ⟨0, output ++ "\n", none⟩
  | .error (.failed f) => ⟨1, "", some f.message⟩
  | .error (.crashed _) => ⟨101, "", none⟩

/-- The configuration that arguments ask for. -/
def configuration (files : Reader m) : Request → m (Except Failure RunConfig)
  | .byFile path => do
    match ← readText files path with
    | .error f => return .error (.file f)
    | .ok text => return (RunConfig.ofText text).mapError .config
  | .byFlags plan tables schemas types format =>
    return (do
      let format ← OutputFormat.ofName format
      RunConfig.ofFlags plan tables schemas types format).mapError .config
  | .inform _ => return .error (.config .notReadable)

/-- The program. -/
def execute (files : Reader m) (arguments : List String) : m Ending := do
  match read arguments with
  | .error _ => return ⟨1, "", none⟩
  | .ok (.inform _) => return ⟨0, "", none⟩
  | .ok request =>
    match ← configuration files request with
    | .error f => return .ofRun (.error (.failed f))
    | .ok c => return .ofRun (← run files c)

end StreamQuery.CommandLine
