/-
Expressions as JSON.

An expression is an object whose only key names its kind.  What a call or a field access carries
is an object of its parts; where an expression is a text of its own it may also be an array of
them, in the order operator, operands or expression, field.
-/
import StreamQuery.Expr.Basic
import StreamQuery.Json.Decode
import StreamQuery.Json.Reader

namespace StreamQuery.Json

/-- The written name of an operator. -/
def opName (op : Op) : String :=
  match op with
  | .equals => "Equals"
  | .notEquals => "NotEq"
  | .less => "LessThan"
  | .lessOrEqual => "LessThanOrEq"
  | .greater => "GreaterThan"
  | .greaterOrEqual => "GreaterThanOrEq"
  | .and => "And"
  | .or => "Or"
  | .not => "Not"
  | .isNull => "IsNull"
  | .isNotNull => "IsNotNull"

/-- An operator. -/
def toOp? (j : Json) : Option Op :=
  j.plainChoice? >>= fun name => Op.all.find? fun op => opName op == name

/-- How the parts of a call or a field access may be written. -/
inductive PartsForm where
  /-- Each under its name. -/
  | named
  /-- Each under its name, or all in order. -/
  | namedOrListed
deriving DecidableEq, Repr

mutual
/-- An expression. -/
def toExpr? (form : PartsForm) : Json → Option Expr
  | .obj [(kind, j)] =>
    if kind = "Literal" then (toValue? j).map .literal
    else if kind = "InputRef" then (toWord? j).map .inputRef
    else if kind = "DynamicParam" then (toWord? j).map .parameter
    else if kind = "CorrelVariable" then (toText? j).map .outer
    else if kind = "Call" then
      match j with
      | .obj members =>
        match onlyMember? "op" members, memberOperands? form members with
        | some (some op), some [operands] => (toOp? op).map fun op => .call op operands
        | _, _ => none
      | .arr [op, .arr items] =>
        match form, toOp? op, toExprs? form items with
        | .namedOrListed, some op, some operands => some (.call op operands)
        | _, _, _ => none
      | _ => none
    else if kind = "FieldAccess" then
      match j with
      | .obj members =>
        match memberExprs? form members, onlyMember? "field" members with
        | some [e], some (some (.str name)) => some (.field e name)
        | _, _ => none
      | .arr [record, .str name] =>
        match form, toExpr? form record with
        | .namedOrListed, some e => some (.field e name)
        | _, _ => none
      | _ => none
    else none
  | _ => none
/-- Expressions. -/
def toExprs? (form : PartsForm) : List Json → Option (List Expr)
  | [] => some []
  | j :: js =>
    match toExpr? form j, toExprs? form js with
    | some e, some es => some (e :: es)
    | _, _ => none
/-- The lists of operands among the members of a call. -/
def memberOperands? (form : PartsForm) : List (String × Json) → Option (List (List Expr))
  | [] => some []
  | (key, j) :: rest =>
    if key = "operands" then
      match j with
      | .arr items =>
        match toExprs? form items, memberOperands? form rest with
        | some es, some more => some (es :: more)
        | _, _ => none
      | _ => none
    else memberOperands? form rest
/-- The expressions among the members of a field access. -/
def memberExprs? (form : PartsForm) : List (String × Json) → Option (List Expr)
  | [] => some []
  | (key, j) :: rest =>
    if key = "expr" then
      match toExpr? form j, memberExprs? form rest with
      | some e, some more => some (e :: more)
      | _, _ => none
    else memberExprs? form rest
end

mutual
/-- The JSON of an expression. -/
def ofExpr : Expr → Json
  | .literal v => .obj [("Literal", ofValue v)]
  | .inputRef i => .obj [("InputRef", ofWord i)]
  | .call op operands =>
    .obj [("Call", .obj [("op", .str (opName op)), ("operands", .arr (ofExprs operands))])]
  | .parameter i => .obj [("DynamicParam", ofWord i)]
  | .outer name => .obj [("CorrelVariable", .str name)]
  | .field e name => .obj [("FieldAccess", .obj [("expr", ofExpr e), ("field", .str name)])]
/-- The JSON of each expression of a list. -/
def ofExprs : List Expr → List Json
  | [] => []
  | e :: es => ofExpr e :: ofExprs es
end

end StreamQuery.Json

namespace StreamQuery.Expr

/-- The expression that a text says; none if it says none. -/
def ofText? (text : List Char) : Option Expr :=
  Json.read text >>= Json.toExpr? .namedOrListed

end StreamQuery.Expr
