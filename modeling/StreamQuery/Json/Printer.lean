/-
The text of a JSON value, on one line or over many.

An unread value has no text of its own and is written as null.
-/
import StreamQuery.Json.Text

namespace StreamQuery.Json

/-- Parts with a separator between them. -/
def separated (sep : List Char) : List (List Char) → List Char
  | [] => []
  | [p] => p
  | p :: ps => p ++ sep ++ separated sep ps

mutual
/-- The text of a value on one line, without blanks. -/
def chars : Json → List Char
  | .null => "null".toList
  | .bool true => "true".toList
  | .bool false => "false".toList
  | .int n => Text.signedDecimal n
  | .decimal mantissa exponent =>
    Text.signedDecimal mantissa ++ 'e' :: Text.signedDecimal exponent
  | .str s => quote s
  | .arr items => '[' :: separated [','] (itemChars items) ++ [']']
  | .obj members => '{' :: separated [','] (memberChars members) ++ ['}']
  | .unread => "null".toList
/-- The texts of items. -/
def itemChars : List Json → List (List Char)
  | [] => []
  | j :: js => chars j :: itemChars js
/-- The texts of members: key, colon, value. -/
def memberChars : List (String × Json) → List (List Char)
  | [] => []
  | (k, j) :: rest => (quote k ++ ':' :: chars j) :: memberChars rest
end

/-- The text of a value on one line. -/
def render (j : Json) : String :=
  String.ofList j.chars

/-- A new line, `level` steps of two blanks in. -/
def newLine (level : Nat) : List Char :=
  '\n' :: List.replicate (2 * level) ' '

/-- A container over several lines; an empty one stays on one line. -/
def block (level : Nat) (first last : Char) : List (List Char) → List Char
  | [] => [first, last]
  | parts =>
    first :: newLine (level + 1) ++ separated (',' :: newLine (level + 1)) parts
      ++ newLine level ++ [last]

mutual
/-- The text of a value that stands `level` steps in, each item and member on a line of its own. -/
def prettyChars (level : Nat) : Json → List Char
  | .arr items => block level '[' ']' (prettyItems (level + 1) items)
  | .obj members => block level '{' '}' (prettyMembers (level + 1) members)
  | j => chars j
/-- The texts of items, each `level` steps in. -/
def prettyItems (level : Nat) : List Json → List (List Char)
  | [] => []
  | j :: js => prettyChars level j :: prettyItems level js
/-- The texts of members, each `level` steps in: key, colon, blank, value. -/
def prettyMembers (level : Nat) : List (String × Json) → List (List Char)
  | [] => []
  | (k, j) :: rest =>
    (quote k ++ ':' :: ' ' :: prettyChars level j) :: prettyMembers level rest
end

/-- The text of a value over several lines. -/
def pretty (j : Json) : String :=
  String.ofList (prettyChars 0 j)

end StreamQuery.Json
