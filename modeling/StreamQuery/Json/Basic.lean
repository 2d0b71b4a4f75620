/-
Values of JSON.

Numbers are kept exactly: an integer that fits 64 bits, signed or unsigned, is an integer, and any
other number is a decimal `mantissa · 10^exponent`.  The members of an object are kept in the order
of the text, repeated keys included, because some readers refuse a repeated key and others take
the last.  A part of a text that is well formed but stands for no value is `unread`: a reader that
skips it may go on, and one that looks at it must give up.
-/
import StreamQuery.Value

namespace StreamQuery

/-- A value of JSON. -/
inductive Json where
  | null
  | bool (b : Bool)
  | int (n : Int)
  | decimal (mantissa exponent : Int)
  | str (s : String)
  | arr (items : List Json)
  | obj (members : List (String × Json))
  /-- A well-formed text without a value: a number or a nesting beyond the limits, or a string
  with half of a surrogate pair. -/
  | unread
deriving Repr, Inhabited

namespace Json

mutual
/-- Whether no part of a value is unread. -/
def readable : Json → Bool
  | .arr items => readableAll items
  | .obj members => readableMembers members
  | .unread => false
  | _ => true
/-- Whether no part of any item is unread. -/
def readableAll : List Json → Bool
  | [] => true
  | j :: js => readable j && readableAll js
/-- Whether no part of any member is unread. -/
def readableMembers : List (String × Json) → Bool
  | [] => true
  | (_, j) :: rest => readable j && readableMembers rest
end

/-- The members whose key does not come again, so of each key the last one. -/
def lastMembers : List (String × Json) → List (String × Json)
  | [] => []
  | (k, j) :: rest =>
    if rest.any fun m => m.1 == k then lastMembers rest else (k, j) :: lastMembers rest

mutual
/-- A value in which every object has each key once, the last of them. -/
def distinct : Json → Json
  | .arr items => .arr (distinctAll items)
  | .obj members => .obj (lastMembers (distinctMembers members))
  | j => j
/-- The items with each key of each object once. -/
def distinctAll : List Json → List Json
  | [] => []
  | j :: js => distinct j :: distinctAll js
/-- The members with each key of each object inside them once. -/
def distinctMembers : List (String × Json) → List (String × Json)
  | [] => []
  | (k, j) :: rest => (k, distinct j) :: distinctMembers rest
end

mutual
/-- How deep arrays and objects nest in a value. -/
def depth : Json → Nat
  | .arr items => depthAll items + 1
  | .obj members => depthMembers members + 1
  | _ => 0
/-- The greatest depth among items. -/
def depthAll : List Json → Nat
  | [] => 0
  | j :: js => max (depth j) (depthAll js)
/-- The greatest depth among members. -/
def depthMembers : List (String × Json) → Nat
  | [] => 0
  | (_, j) :: rest => max (depth j) (depthMembers rest)
end

/-- The members with their keys in the order of their bytes. -/
def sortMembers (members : List (String × Json)) : List (String × Json) :=
  members.mergeSort fun a b =>
    (Ord.compare (Text.Utf8.encode a.1) (Text.Utf8.encode b.1)).isLE

/-- An object whose keys are in the order of their bytes. -/
def object (members : List (String × Json)) : Json :=
  .obj (sortMembers members)

/-- The last member of a key of an object; any other value has no members. -/
def member? (key : String) : Json → Option Json
  | .obj members => (members.findRev? fun m => m.1 == key).map Prod.snd
  | _ => none

/-- A number of 64 bits. -/
def ofWord (n : UInt64) : Json :=
  .int n.toNat

/-- A number that counts or names a position. -/
def ofNat (n : Nat) : Json :=
  .int n

mutual
/-- The JSON of a value of a field. -/
def ofValue : Value → Json
  | .null => .null
  | .int n => .int n.toInt
  | .bool b => .bool b
  | .string s => .str s
  | .row fields => .arr (ofValues fields)
/-- The JSON of each value of a list. -/
def ofValues : List Value → List Json
  | [] => []
  | v :: vs => ofValue v :: ofValues vs
end

end Json

end StreamQuery
