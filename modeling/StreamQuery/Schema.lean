/-
Types of values and schemas of rows.

A schema is a list of named, typed attributes.  A type is a primitive, a record with a schema of
its own, or a placeholder for a record that is still being built and is known by its key only.
Names may repeat in a schema; the last attribute of a name is the one that the name stands for.
-/
import StreamQuery.SipHash
import StreamQuery.Text.Basic
import StreamQuery.Value

namespace StreamQuery

/-- The identity of a record type: a number, whatever the type looks like. -/
structure TypeKey where
  id : UInt64
deriving DecidableEq, Repr

/-- The key of the type of a name. -/
def TypeKey.named (name : String) : TypeKey :=
  ⟨SipHash.nameId name⟩

/-- The text of a key. -/
def TypeKey.render (key : TypeKey) : String :=
  String.ofList (Text.decimal key.id.toNat)

mutual
/-- The type of a value. -/
inductive DataType where
  | null
  | int
  | bool
  | string
  /-- A record with a value for each attribute. -/
  | struct (attributes : List Attribute)
  /-- A record that is still being built. -/
  | unresolved (key : TypeKey)
/-- A named column or field. -/
structure Attribute where
  name : String
  type : DataType
end

/-- The columns of a row, in order. -/
abbrev Schema := List Attribute

deriving instance Repr for DataType, Attribute

instance : Inhabited DataType := ⟨.null⟩

namespace DataType

mutual
/-- Whether two types are the same. -/
def same : DataType → DataType → Bool
  | .null, .null => true
  | .int, .int => true
  | .bool, .bool => true
  | .string, .string => true
  | .struct as, .struct bs => sameAll as bs
  | .unresolved k, .unresolved l => k == l
  | _, _ => false
/-- Whether two lists of attributes are the same. -/
def sameAll : List Attribute → List Attribute → Bool
  | [], [] => true
  | ⟨n, t⟩ :: as, ⟨m, u⟩ :: bs => n == m && same t u && sameAll as bs
  | _, _ => false
end

mutual
theorem same_self : ∀ t : DataType, same t t = true
  | .null => rfl
  | .int => rfl
  | .bool => rfl
  | .string => rfl
  | .struct as => by simp [same, sameAll_self as]
  | .unresolved k => by simp [same]
theorem sameAll_self : ∀ as : List Attribute, sameAll as as = true
  | [] => rfl
  | ⟨n, t⟩ :: as => by simp [sameAll, same_self t, sameAll_self as]
end

mutual
theorem eq_of_same : ∀ {t u : DataType}, same t u = true → t = u
  | .null, u, h => by cases u <;> simp_all [same]
  | .int, u, h => by cases u <;> simp_all [same]
  | .bool, u, h => by cases u <;> simp_all [same]
  | .string, u, h => by cases u <;> simp_all [same]
  | .struct as, u, h => by
    cases u with
    | struct bs =>
      have inner : sameAll as bs = true := by simpa [same] using h
      exact congrArg DataType.struct (eq_of_sameAll inner)
    | _ => simp [same] at h
  | .unresolved k, u, h => by cases u <;> simp_all [same]
theorem eq_of_sameAll : ∀ {as bs : List Attribute}, sameAll as bs = true → as = bs
  | [], [], _ => rfl
  | [], _ :: _, h => by simp [sameAll] at h
  | _ :: _, [], h => by simp [sameAll] at h
  | ⟨n, t⟩ :: as, ⟨m, u⟩ :: bs, h => by
    simp only [sameAll, Bool.and_eq_true, beq_iff_eq] at h
    rw [h.1.1, eq_of_same h.1.2, eq_of_sameAll h.2]
end

instance : DecidableEq DataType := fun t u =>
  decidable_of_iff (same t u = true) ⟨eq_of_same, fun h => h ▸ same_self t⟩

/-- Whether a type is a placeholder. -/
def isUnresolved : DataType → Bool
  | .unresolved _ => true
  | _ => false

/-- The primitive of a name, in any case of its letters. -/
def ofName? (name : String) : Option DataType :=
  match String.ofList (Text.lower name.toList) with
  | "int" | "integer" => some .int
  | "bool" | "boolean" => some .bool
  | "string" | "varchar" => some .string
  | "null" => some .null
  | _ => none

mutual
/-- The text of a type.  A placeholder shows its key, so the text is finite for any type. -/
def digest : DataType → String
  | .null => "NULL"
  | .int => "INTEGER"
  | .bool => "BOOLEAN"
  | .string => "VARCHAR"
  | .struct attributes => "RecordType(" ++ ", ".intercalate (digestAll attributes) ++ ")"
  | .unresolved key => "UNRESOLVED(" ++ key.render ++ ")"
/-- The texts of the attributes of a list: type, blank, name. -/
def digestAll : List Attribute → List String
  | [] => []
  | ⟨name, type⟩ :: rest => (digest type ++ " " ++ name) :: digestAll rest
end

end DataType

instance : DecidableEq Attribute
  | ⟨n, t⟩, ⟨m, u⟩ =>
    decidable_of_iff (n = m ∧ t = u) ⟨fun h => h.1 ▸ h.2 ▸ rfl, fun h => by injection h; simp [*]⟩

namespace Schema

/-- The text of a schema. -/
def digest (s : Schema) : String :=
  (DataType.struct s).digest

/-- A schema from names and types; what one list has beyond the other is left out. -/
def ofLists (names : List String) (types : List DataType) : Schema :=
  names.zipWith Attribute.mk types

/-- The position of the last attribute of a name. -/
def indexOf? (s : Schema) (name : String) : Option Nat :=
  go s 0 none
where
  /-- Looks on from position `i`, with the best position so far. -/
  go : List Attribute → Nat → Option Nat → Option Nat
    | [], _, found => found
    | a :: rest, i, found => go rest (i + 1) (if a.name = name then some i else found)

/-- The attributes of one schema followed by those of another. -/
def merge (s t : Schema) : Schema :=
  s ++ t

end Schema

/-- The name of the column or field at a position that nobody has named. -/
def anonymousName (i : Nat) : String :=
  "EXPR$" ++ String.ofList (Text.decimal i)

mutual
/-- The type of a value.  The fields of a nested row have no names of their own. -/
def Value.dataType : Value → DataType
  | .null => .null
  | .int _ => .int
  | .bool _ => .bool
  | .string _ => .string
  | .row fields => .struct (Value.attributesFrom 0 fields)
/-- The attributes of the fields of a row, numbered from `i`. -/
def Value.attributesFrom (i : Nat) : List Value → List Attribute
  | [] => []
  | v :: vs => ⟨anonymousName i, Value.dataType v⟩ :: Value.attributesFrom (i + 1) vs
end

end StreamQuery
