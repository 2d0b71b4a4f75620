/-
Compiled expressions.

Compiling checks an expression once: its kinds, the number of operands of each call and, where the
schema of the rows is known, its references.  The operands of a call are compiled before the call
itself is checked, so the defect that is reported is the first one from the inside out and from
left to right.  What remains for each row is a computation that can only fail on the row: a
reference beyond its end, or a value that is no truth value where one is needed.
-/
import StreamQuery.Expr.Basic
import StreamQuery.Row

namespace StreamQuery

/-- Why an expression cannot be compiled. -/
inductive CompileDefect where
  /-- The expression is of a kind that is not computed here. -/
  | unsupported (e : Expr)
  /-- A reference is beyond the schema of the rows. -/
  | beyondInput (index : UInt64) (input : Schema)
  /-- A call has the wrong number of operands. -/
  | operandCount (op : Op) (call : Expr)
deriving Repr

namespace CompileDefect

/-- How many operands an operator wants, in words. -/
def wanted (op : Op) : String :=
  if op.isComparison then "2 operands"
  else match op with
    | .and | .or => "operands"
    | _ => "1 operand"

/-- The text of a defect. -/
def message : CompileDefect → String
  | .unsupported e => "cannot compile expression " ++ e.render ++ ": unsupported expression kind"
  | .beyondInput index input =>
    "input reference $" ++ String.ofList (Text.decimal index.toNat) ++ " is out of range for input "
      ++ input.digest
  | .operandCount op call => op.symbol ++ " expects " ++ wanted op ++ " in " ++ call.render

end CompileDefect

/-- Why an expression has no value on a row. -/
inductive EvalDefect where
  /-- A reference is beyond the end of the row. -/
  | shortRow (index : UInt64) (size : Nat)
  /-- An operand of the expression is no truth value. -/
  | notBoolean (operand : Value) (inside : Expr)
deriving Repr

/-- The text of a defect. -/
def EvalDefect.message : EvalDefect → String
  | .shortRow index size =>
    "input reference $" ++ String.ofList (Text.decimal index.toNat)
      ++ " is out of range for a row of " ++ String.ofList (Text.decimal size) ++ " fields"
  | .notBoolean operand inside =>
    "operand " ++ operand.render ++ " of " ++ inside.render ++ " is not a boolean"

/-- What is computed for each row. -/
inductive Code where
  | constant (v : Value)
  /-- The field at a position. -/
  | fetch (index : UInt64)
  /-- A comparison; null if a side is null. -/
  | compare (op : Op) (left right : Code)
  /-- The operands in turn up to the first that is the deciding truth value. -/
  | connect (deciding : Bool) (operands : List Code) (source : Expr)
  /-- The opposite truth value. -/
  | negate (operand : Code) (source : Expr)
  /-- Whether the operand is null, or with `ifNull` false whether it is not. -/
  | nullTest (ifNull : Bool) (operand : Code)
deriving Repr

namespace Code

mutual
/-- The value of the code on a row. -/
def eval (row : Row) : Code → Except EvalDefect Value
  | .constant v => .ok v
  | .fetch index =>
    match row[index.toNat]? with
    | some v => .ok v
    | none => .error (.shortRow index row.length)
  | .compare op left right => do
    let l ← eval row left
    let r ← eval row right
    if l.isNull || r.isNull then return .null
    else return .bool (op.compare l r)
  | .connect deciding operands source => evalConnect row deciding source false operands
  | .negate operand source => do
    match ← eval row operand with
    | .bool b => return .bool (!b)
    | .null => return .null
    | other => throw (.notBoolean other source)
  | .nullTest ifNull operand => do
    let v ← eval row operand
    return .bool (v.isNull == ifNull)
/-- The value of the operands that are left when none before them decided. -/
def evalConnect (row : Row) (deciding : Bool) (source : Expr) (sawNull : Bool) :
    List Code → Except EvalDefect Value
  | [] => .ok (if sawNull then .null else .bool (!deciding))
  | c :: cs => do
    match ← eval row c with
    | .bool b =>
      if b = deciding then return .bool deciding
      else evalConnect row deciding source sawNull cs
    | .null => evalConnect row deciding source true cs
    | other => throw (.notBoolean other source)
end

/-- The code of a call whose operands are compiled. -/
def ofCall (source : Expr) (op : Op) (operands : List Code) : Except CompileDefect Code :=
  match op, operands with
  | .and, _ :: _ => .ok (.connect false operands source)
  | .or, _ :: _ => .ok (.connect true operands source)
  | .not, [c] => .ok (.negate c source)
  | .isNull, [c] => .ok (.nullTest true c)
  | .isNotNull, [c] => .ok (.nullTest false c)
  | op, [l, r] =>
    if op.isComparison then .ok (.compare op l r) else .error (.operandCount op source)
  | op, _ => .error (.operandCount op source)

mutual
/-- The code of an expression over rows of a schema, if the schema is known. -/
def compile (input : Option Schema) : Expr → Except CompileDefect Code
  | .literal v => .ok (.constant v)
  | .inputRef index =>
    match input with
    | none => .ok (.fetch index)
    | some schema =>
      if index.toNat < schema.length then .ok (.fetch index)
      else .error (.beyondInput index schema)
  | .call op operands => do
    let codes ← compileAll input operands
    ofCall (.call op operands) op codes
  | e => .error (.unsupported e)
/-- The codes of expressions. -/
def compileAll (input : Option Schema) : List Expr → Except CompileDefect (List Code)
  | [] => .ok []
  | e :: es => do
    let c ← compile input e
    let cs ← compileAll input es
    return c :: cs
end

end Code

/-- A compiled expression together with what it was compiled from. -/
structure Scalar where
  source : Expr
  code : Code
deriving Repr

namespace Scalar

/-- Compiles an expression over rows of a schema, if the schema is known. -/
def compile (input : Option Schema) (e : Expr) : Except CompileDefect Scalar :=
  (Code.compile input e).map fun code => ⟨e, code⟩

/-- The value of the expression on a row. -/
def eval (s : Scalar) (row : Row) : Except EvalDefect Value :=
  s.code.eval row

/-- Whether the expression is true on a row; null is not true. -/
def isTrue (s : Scalar) (row : Row) : Except EvalDefect Bool :=
  (s.eval row).map fun v => v = .bool true

/-- The text of a compiled expression. -/
def render (s : Scalar) : String :=
  "Scalar(" ++ s.source.render ++ ")"

end Scalar

end StreamQuery
