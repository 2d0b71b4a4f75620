/-
The values that fields hold, their order and their text.

Values are ordered by kind first, null before integers before booleans before strings before
rows, and inside a kind by what they hold: integers as numbers, strings by their bytes, rows field
by field with a shorter row before its extensions.  Two values compare equal only if they are the
same value, which makes equality decidable.
-/
import StreamQuery.Text.Basic
import StreamQuery.Text.Utf8

namespace StreamQuery

/-- A value of a field. -/
inductive Value where
  | null
  | int (n : Int64)
  | bool (b : Bool)
  | string (s : String)
  | row (fields : List Value)
deriving Repr, Inhabited

namespace Value

/-- The place of a value's kind among the kinds. -/
def rank : Value → Nat
  | .null => 0
  | .int _ => 1
  | .bool _ => 2
  | .string _ => 3
  | .row _ => 4

mutual
/-- How two values compare. -/
def compare : Value → Value → Ordering
  | .int a, .int b => Ord.compare a.toInt b.toInt
  | .bool a, .bool b => Ord.compare a b
  | .string a, .string b => Ord.compare (Text.Utf8.encode a) (Text.Utf8.encode b)
  | .row as, .row bs => compareAll as bs
  | a, b => Ord.compare a.rank b.rank
/-- How two lists of values compare, field by field. -/
def compareAll : List Value → List Value → Ordering
  | [], [] => .eq
  | [], _ :: _ => .lt
  | _ :: _, [] => .gt
  | a :: as, b :: bs => (compare a b).then (compareAll as bs)
end

mutual
theorem compare_self : ∀ v : Value, compare v v = .eq
  | .null => by simp [compare]
  | .int a => by simp [compare]
  | .bool a => by simp [compare]
  | .string a => by simp [compare]
  | .row as => by simp [compare, compareAll_self as]
theorem compareAll_self : ∀ vs : List Value, compareAll vs vs = .eq
  | [] => rfl
  | v :: vs => by simp [compareAll, compare_self v, compareAll_self vs]
end

mutual
theorem eq_of_compare_eq : ∀ {a b : Value}, compare a b = .eq → a = b
  | .null, b, h => by cases b <;> simp_all [compare, rank]
  | .int a, b, h => by
    cases b <;> simp_all [compare, rank]
    exact Int64.toInt_inj.1 h
  | .bool a, b, h => by cases b <;> simp_all [compare, rank]
  | .string a, b, h => by
    cases b <;> simp_all [compare, rank, Text.Utf8.encode]
    exact String.toByteArray_inj.1 (ByteArray.ext h)
  | .row as, b, h => by
    cases b with
    | row bs =>
      have fields : compareAll as bs = .eq := by simpa [compare] using h
      exact congrArg Value.row (eq_of_compareAll_eq fields)
    | _ => simp_all [compare, rank]
theorem eq_of_compareAll_eq : ∀ {as bs : List Value}, compareAll as bs = .eq → as = bs
  | [], [], _ => rfl
  | [], _ :: _, h => by simp [compareAll] at h
  | _ :: _, [], h => by simp [compareAll] at h
  | a :: as, b :: bs, h => by
    simp only [compareAll, Ordering.then_eq_eq] at h
    rw [eq_of_compare_eq h.1, eq_of_compareAll_eq h.2]
end

/-- Values compare equal exactly if they are the same. -/
theorem compare_eq_iff {a b : Value} : compare a b = .eq ↔ a = b :=
  ⟨eq_of_compare_eq, fun h => h ▸ compare_self a⟩

instance : Ord Value := ⟨compare⟩

instance : DecidableEq Value := fun _ _ => decidable_of_iff _ compare_eq_iff

/-- Whether a value is null. -/
def isNull : Value → Bool
  | .null => true
  | _ => false

mutual
/-- The text of a value.  A string stands for itself, without quotes. -/
def render : Value → String
  | .null => "NULL"
  | .int n => String.ofList (Text.signedDecimal n.toInt)
  | .bool true => "true"
  | .bool false => "false"
  | .string s => s
  | .row fields => "(" ++ ", ".intercalate (renderAll fields) ++ ")"
/-- The texts of the values of a list. -/
def renderAll : List Value → List String
  | [] => []
  | v :: vs => render v :: renderAll vs
end

/-- A use of a value as something that it is not. -/
inductive Mismatch where
  | notInteger
  | notString
deriving DecidableEq, Repr

/-- The text of a mismatch. -/
def Mismatch.message : Mismatch → String
  | .notInteger => "Expected i64"
  | .notString => "Expected String"

/-- The number that an integer holds. -/
def asInt : Value → Except Mismatch Int64
  | .int n => .ok n
  | _ => .error .notInteger

/-- The text that a string holds. -/
def asString : Value → Except Mismatch String
  | .string s => .ok s
  | _ => .error .notString

/-- Values in ascending order; values that compare equal are the same, so no other order could
tell them apart. -/
def sort (vs : List Value) : List Value :=
  vs.mergeSort fun a b => (compare a b).isLE

end Value

end StreamQuery
