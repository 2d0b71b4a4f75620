/-
Reading records, choices and lists out of JSON.

A record is written as an object, whose further members do not matter, or as an array of its
fields in the order of their declaration, of which those at the end may be missing.  A choice is
written as its name, or as an object with its name as the only key.  A key that a record declares
may come only once.
-/
import StreamQuery.Json.Basic

namespace StreamQuery.Json

/-- A string. -/
def toText? : Json → Option String
  | .str s => some s
  | _ => none

/-- A truth value. -/
def toBool? : Json → Option Bool
  | .bool b => some b
  | _ => none

/-- A signed number of 64 bits. -/
def toInt64? : Json → Option Int64
  | .int n => Text.toInt64? n
  | _ => none

/-- An unsigned number of 64 bits. -/
def toWord? : Json → Option UInt64
  | .int n => if 0 ≤ n then Text.toWord? n.toNat else none
  | _ => none

/-- The items of an array. -/
def toItems? : Json → Option (List Json)
  | .arr items => some items
  | _ => none

/-- The members of an object. -/
def toMembers? : Json → Option (List (String × Json))
  | .obj members => some members
  | _ => none

/-- A list, each item read by `f`. -/
def toList? {α : Type} (f : Json → Option α) (j : Json) : Option (List α) :=
  j.toItems? >>= fun items => items.mapM f

/-- The only value of a key among members; none if there is no such member or more than one. -/
def onlyMember? (key : String) (members : List (String × Json)) : Option (Option Json) :=
  match members.filter fun m => m.1 == key with
  | [] => some none
  | [(_, j)] => some (some j)
  | _ => none

/-- The declared fields of a record, each with its value if it has one. -/
def fields? (names : List String) : Json → Option (List (Option Json))
  | .obj members => names.mapM fun n => onlyMember? n members
  | .arr items =>
    if items.length ≤ names.length then
      some (items.map some ++ List.replicate (names.length - items.length) none)
    else none
  | _ => none

/-- The name of a choice and what it carries, if it carries anything. -/
def choice? : Json → Option (String × Option Json)
  | .str name => some (name, none)
  | .obj [(name, j)] => some (name, some j)
  | _ => none

/-- The name of a choice that carries nothing. -/
def plainChoice? (j : Json) : Option String :=
  match j.choice? with
  | some (name, none) => some name
  | some (name, some .null) => some name
  | _ => none

mutual
/-- The value of a field. -/
def toValue? : Json → Option Value
  | .null => some .null
  | .bool b => some (.bool b)
  | .int n => (Text.toInt64? n).map .int
  | .str s => some (.string s)
  | .arr items => (toValues? items).map .row
  | _ => none
/-- The values of fields. -/
def toValues? : List Json → Option (List Value)
  | [] => some []
  | j :: js =>
    match toValue? j, toValues? js with
    | some v, some vs => some (v :: vs)
    | _, _ => none
end

/-- A row of data. -/
def toRow? : Json → Option (List Value)
  | .arr items => toValues? items
  | _ => none

end StreamQuery.Json
