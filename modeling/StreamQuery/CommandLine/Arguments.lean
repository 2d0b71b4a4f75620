/-
The arguments of the program.

A long option is two dashes and a name, with its value behind an equals sign or in the next
argument; a short one is a dash and a letter, with its value right behind it, with or without an
equals sign, or in the next argument.  An argument that begins with a dash is never the value of
the option before it, except for a dash alone.
-/
import StreamQuery.Text.Basic

namespace StreamQuery.CommandLine

/-- The options that take a value. -/
inductive Flag where
  | config
  | plan
  | table
  | schema
  | type
  | format
deriving DecidableEq, Repr

/-- The options that only ask for information. -/
inductive Inquiry where
  | help
  | version
deriving DecidableEq, Repr

namespace Flag

/-- All options. -/
def all : List Flag :=
  [.config, .plan, .table, .schema, .type, .format]

/-- The long name of an option. -/
def name : Flag → String
  | .config => "config"
  | .plan => "plan"
  | .table => "table"
  | .schema => "schema"
  | .type => "type"
  | .format => "format"

/-- The letter of an option, if it has one. -/
def letter : Flag → Option Char
  | .config => some 'c'
  | .plan => some 'p'
  | .table => some 't'
  | .schema => some 's'
  | .type => none
  | .format => some 'f'

/-- Whether an option may come more than once. -/
def repeats : Flag → Bool
  | .table | .schema | .type => true
  | _ => false

/-- The output format that nobody has chosen. -/
def usualFormat : String := "table"

/-- The value of an option that comes without one, if it may. -/
def default? : Flag → Option String
  | .format => some usualFormat
  | _ => none

/-- The option of a long name. -/
def ofName? (n : String) : Option Flag :=
  all.find? fun f => f.name == n

/-- The option of a letter. -/
def ofLetter? (c : Char) : Option Flag :=
  all.find? fun f => f.letter == some c

end Flag

/-- Why arguments are not understood. -/
inductive UsageFault where
  /-- An argument belongs to no option. -/
  | unexpected (argument : String)
  /-- An option has no value. -/
  | noValue (f : Flag)
  /-- An option comes more than once. -/
  | repeated (f : Flag)
  /-- There is no output format of this name. -/
  | noFormat (name : String)
  /-- Neither a plan nor a configuration file is given. -/
  | noPlan
deriving DecidableEq, Repr

/-- What arguments say. -/
inductive Request where
  /-- To run by a configuration file. -/
  | byFile (path : String)
  /-- To run by what the other options say. -/
  | byFlags (plan : String) (tables schemas types : List String) (format : String)
  /-- To give information. -/
  | inform (i : Inquiry)
deriving DecidableEq, Repr

/-- What has been read so far: the options that came, their values, and the option that waits for
its value, all in the order of the arguments. -/
structure Reading where
  came : List Flag
  values : List (Flag × String)
  waiting : Option Flag

namespace Reading

/-- Nothing read. -/
def empty : Reading := ⟨[], [], none⟩

/-- Adds an option with its value, or one that waits for its value. -/
def addFlag (r : Reading) (f : Flag) : Option (List Char) → Reading
  | some value =>
    ⟨r.came ++ [f], r.values ++ [(f, String.ofList (value.dropWhile (· = '=')))], none⟩
  | none => ⟨r.came ++ [f], r.values, some f⟩

/-- The values of an option. -/
def valuesOf (r : Reading) (f : Flag) : List String :=
  (r.values.filter fun v => v.1 = f).map Prod.snd

end Reading

/-- What one argument brings. -/
inductive Step where
  | go (r : Reading)
  /-- Information is asked for, and the arguments behind do not matter. -/
  | inform (i : Inquiry)

/-- Reads a long option, given without its dashes. -/
def readLong (r : Reading) (argument : String) (body : List Char) : Except UsageFault Step :=
  let (name, value) := Text.cut '=' body
  match Flag.ofName? (String.ofList name) with
  | some f => .ok (.go (r.addFlag f value))
  | none =>
    match String.ofList name with
    | "help" => .ok (.inform .help)
    | "version" => .ok (.inform .version)
    | _ => .error (.unexpected argument)

/-- Reads a short option, given without its dash. -/
def readShort (r : Reading) (argument : String) : List Char → Except UsageFault Step
  | [] => .error (.unexpected argument)
  | c :: rest =>
    match Flag.ofLetter? c with
    | some f => .ok (.go (r.addFlag f (if rest.isEmpty then none else some rest)))
    | none =>
      match c with
      | 'h' => .ok (.inform .help)
      | 'V' => .ok (.inform .version)
      | _ => .error (.unexpected argument)

/-- Reads one argument. -/
def readArgument (r : Reading) (argument : String) : Except UsageFault Step :=
  match argument.toList with
  | '-' :: '-' :: body => readLong r argument (body.dropWhile (· = '-'))
  | '-' :: c :: rest => readShort r argument (c :: rest)
  | _ =>
    match r.waiting with
    | some f => .ok (.go ⟨r.came, r.values ++ [(f, argument)], none⟩)
    | none => .error (.unexpected argument)

/-- What is wrong with how often an option came and with its values. -/
def checkFlag (r : Reading) (f : Flag) : Except UsageFault Unit :=
  if f ∈ r.came ∧ r.valuesOf f = [] ∧ f.default? = none then .error (.noValue f)
  else if 1 < r.came.count f ∧ !f.repeats then .error (.repeated f)
  else .ok ()

/-- Checks that every output format is one of the two. -/
def checkFormats : List String → Except UsageFault Unit
  | [] => .ok ()
  | name :: rest =>
    if name = "table" ∨ name = "json" then checkFormats rest else .error (.noFormat name)

/-- Checks what was read. -/
def check (r : Reading) : Except UsageFault Request := do
  Flag.all.forM (checkFlag r)
  checkFormats (r.valuesOf .format)
  match r.valuesOf .config, r.valuesOf .plan with
  | path :: _, _ => return .byFile path
  | [], plan :: _ =>
    return .byFlags plan (r.valuesOf .table) (r.valuesOf .schema) (r.valuesOf .type)
      ((r.valuesOf .format).headD Flag.usualFormat)
  | [], [] => throw .noPlan

/-- Reads arguments.  Behind two dashes alone there are no options, and nothing else is
understood. -/
def readFrom (r : Reading) : List String → Except UsageFault Request
  | [] => check r
  | "--" :: [] => check r
  | "--" :: argument :: _ => .error (.unexpected argument)
  | argument :: rest => do
    match ← readArgument r argument with
    | .go r => readFrom r rest
    | .inform i => return .inform i

/-- What the arguments of the program say. -/
def read (arguments : List String) : Except UsageFault Request :=
  readFrom .empty arguments

end StreamQuery.CommandLine
