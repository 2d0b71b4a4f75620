/-
Everything that can go wrong for the user of the program, with its text.

Each failure is of one of four kinds, and the kind begins its text.  A crash is not a failure: it
says that a plan or an expression was not fit to be run.
-/
import StreamQuery.Config.Definition
import StreamQuery.Csv.Load
import StreamQuery.Query.Executor

namespace StreamQuery

/-- Why a file cannot be read. -/
inductive FileFault where
  | notFound
  /-- The path leads through something that is no directory. -/
  | notDirectory
  /-- The path leads to a directory. -/
  | isDirectory
  | nameTooLong
  /-- The path holds a character that no name may hold. -/
  | nulInPath
  /-- The file holds bytes that are no text. -/
  | notText
  | other (message : String)
deriving DecidableEq, Repr

/-- The text of a fault. -/
def FileFault.message : FileFault → String
  | .notFound => "No such file or directory (os error 2)"
  | .notDirectory => "Not a directory (os error 20)"
  | .isDirectory => "Is a directory (os error 21)"
  | .nameTooLong => "File name too long (os error 36)"
  | .nulInPath => "file name contained an unexpected NUL byte"
  | .notText => "stream did not contain valid UTF-8"
  | .other message => message

/-- The kinds of failures. -/
inductive FailureKind where
  | file
  | validation
  | execution
  | cancelled
deriving DecidableEq, Repr

/-- A failure with its cause. -/
inductive Failure where
  | file (f : FileFault)
  /-- A table leads to a directory. -/
  | tableIsDirectory
  | config (f : Config.ConfigFault)
  | load (f : Csv.LoadFault)
  | type (u : UnknownType)
  /-- A text does not say a plan. -/
  | planText
  | plan (f : PlanFault)
  | query (e : QueryError)
deriving Repr

namespace Failure

/-- The kind of a failure. -/
def kind : Failure → FailureKind
  | .file _ => .file
  | .tableIsDirectory | .config _ | .load _ | .type _ | .planText => .validation
  | .plan .noRoot | .plan .noTable => .execution
  | .plan _ => .validation
  | .query (.channel .cancelled) => .cancelled
  | .query _ => .execution

/-- What went wrong, without the kind. -/
def detail : Failure → String
  | .file f => f.message
  | .tableIsDirectory => "CSV: " ++ FileFault.isDirectory.message
  | .config f => f.message
  | .load f => f.message
  | .type u => u.message
  | .planText => "Malformatted logical plan json"
  | .plan f => f.message
  | .query .notConfigured => "No query configured"
  | .query .notStarted => "Query not started"
  | .query (.channel .cancelled) => "Query Cancelled"
  | .query (.channel .consumerClosed) => "Consumer closed its input"
  | .query (.channel .producerStopped) => "Producer stopped without ending its output"

/-- The text of a failure. -/
def message (f : Failure) : String :=
  match f.kind with
  | .file | .cancelled => f.detail
  | .validation => "Validation Error: " ++ f.detail
  | .execution => "Execution Error: " ++ f.detail

/-- The failure of a call on a channel. -/
def ofChannel (e : ChannelError) : Failure :=
  .query (.channel e)

end Failure

/-- Why a plan or an expression was not fit to be run. -/
inductive Crash where
  | expression (d : CompileDefect)
  | wiring (d : WiringDefect)
  | running (d : RunDefect)
  /-- A query waits for itself. -/
  | stuck
deriving Repr

/-- The text of a crash. -/
def Crash.message : Crash → String
  | .expression d => d.message
  | .wiring d => d.message
  | .running d => d.message
  | .stuck => "the query waits for itself"

/-- Why there is no answer. -/
inductive RunError where
  | failed (f : Failure)
  | crashed (c : Crash)
deriving Repr

/-- Why a plan cannot be run. -/
def RunError.ofBuild : BuildError → RunError
  | .fault f => .failed (.plan f)
  | .expression d => .crashed (.expression d)
  | .wiring d => .crashed (.wiring d)

end StreamQuery
