/-
Expressions over the fields of a row.

`Expr.dataType` gives the type of an expression against a schema where the expression has one, and
`Expr.render` its text.
-/
import StreamQuery.Schema

namespace StreamQuery

/-- What a call computes from its operands. -/
inductive Op where
  | equals
  | notEquals
  | less
  | lessOrEqual
  | greater
  | greaterOrEqual
  | and
  | or
  | not
  | isNull
  | isNotNull
deriving DecidableEq, Repr

namespace Op

/-- All operators, comparisons first. -/
def all : List Op :=
  [.equals, .notEquals, .less, .lessOrEqual, .greater, .greaterOrEqual, .and, .or, .not, .isNull,
    .isNotNull]

/-- The text of an operator. -/
def symbol : Op → String
  | .equals => "="
  | .notEquals => "<>"
  | .less => "<"
  | .lessOrEqual => "<="
  | .greater => ">"
  | .greaterOrEqual => ">="
  | .and => "AND"
  | .or => "OR"
  | .not => "NOT"
  | .isNull => "IS NULL"
  | .isNotNull => "IS NOT NULL"

/-- Whether an operator compares two values. -/
def isComparison : Op → Bool
  | .equals | .notEquals | .less | .lessOrEqual | .greater | .greaterOrEqual => true
  | _ => false

/-- Whether a comparison holds of two values that compare as `o`; other operators hold of none. -/
def holds (op : Op) (o : Ordering) : Bool :=
  match op with
  | .equals => o.isEq
  | .notEquals => o.isNe
  | .less => o.isLT
  | .lessOrEqual => o.isLE
  | .greater => o.isGT
  | .greaterOrEqual => o.isGE
  | _ => false

/-- Whether a comparison holds of two values. -/
def compare (op : Op) (a b : Value) : Bool :=
  op.holds (Value.compare a b)

end Op

/-- An expression. -/
inductive Expr where
  /-- A constant. -/
  | literal (v : Value)
  /-- The field of the row at a position. -/
  | inputRef (index : UInt64)
  /-- An operator applied to operands. -/
  | call (op : Op) (operands : List Expr)
  /-- A parameter of the query, bound outside of its execution. -/
  | parameter (index : UInt64)
  /-- A row of an enclosing query. -/
  | outer (name : String)
  /-- A field of a nested row. -/
  | field (of : Expr) (name : String)
deriving Repr, Inhabited

namespace Expr

mutual
/-- The text of an expression. -/
def render : Expr → String
  | .literal (.string s) => "'" ++ s ++ "'"
  | .literal v => v.render
  | .inputRef i => "$" ++ String.ofList (Text.decimal i.toNat)
  | .call op operands => op.symbol ++ "(" ++ ", ".intercalate (renderAll operands) ++ ")"
  | .parameter i => "?" ++ String.ofList (Text.decimal i.toNat)
  | .outer name => "$cor(" ++ name ++ ")"
  | .field e name => render e ++ "." ++ name
/-- The texts of expressions. -/
def renderAll : List Expr → List String
  | [] => []
  | e :: es => render e :: renderAll es
end

/-- The type of an expression over rows of a schema.  A reference beyond the schema has none, and
neither has a parameter, an outer row or a field of a row. -/
def dataType (input : Schema) : Expr → Option DataType
  | .literal v => some v.dataType
  | .inputRef i => input[i.toNat]?.map Attribute.type
  | .call _ _ => some .bool
  | _ => none

end Expr

end StreamQuery
