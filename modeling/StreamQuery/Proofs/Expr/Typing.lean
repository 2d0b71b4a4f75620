/-
Values have the types of the expressions that give them.

`Value.Conforms` says when a value is one of a type: null is one of every type, a
number, a truth value or a text is one of its own primitive, and a row is one of a
record if its fields are of the types of the attributes, one for one.  Names play no
part in it.

A value that an expression gives on a row of a schema is one of the type that
`Expr.dataType` derives for the expression, and a compiled expression always has such a
type: what has none, a parameter, an outer row or a field of a row, does not compile.
-/
import StreamQuery.Proofs.Expr.ThreeValued

namespace StreamQuery

/-! ### Values of a type -/

mutual
/-- A value is one of a type. -/
def Value.Conforms : Value → DataType → Prop
  | .null, _ => True
  | .int _, .int => True
  | .bool _, .bool => True
  | .string _, .string => True
  | .row fields, .struct attributes => Value.ConformAll fields attributes
  | _, _ => False
/-- Values are of the types of attributes, one for one. -/
def Value.ConformAll : List Value → List Attribute → Prop
  | [], [] => True
  | v :: vs, a :: as => Value.Conforms v a.type ∧ Value.ConformAll vs as
  | _, _ => False
end

/-- The fields of a row are of the types of a schema. -/
def Row.Conforms (row : Row) (schema : Schema) : Prop :=
  Value.ConformAll row schema

namespace Value

@[simp] theorem conforms_null (t : DataType) : Value.null.Conforms t := by
  cases t <;> trivial

@[simp] theorem conforms_bool (b : Bool) : (Value.bool b).Conforms .bool := by
  trivial

theorem conforms_truth (t : Truth) : t.value.Conforms .bool := by
  cases t <;> simp [Truth.value]

mutual
/-- A value is one of its own type. -/
theorem conforms_dataType : ∀ v : Value, v.Conforms v.dataType
  | .null => by simp
  | .int _ => by simp [dataType, Conforms]
  | .bool _ => by simp [dataType]
  | .string _ => by simp [dataType, Conforms]
  | .row fields => by
      rw [dataType, Conforms]
      exact conformAll_attributesFrom fields 0
theorem conformAll_attributesFrom : ∀ (vs : List Value) (i : Nat), ConformAll vs (attributesFrom i vs)
  | [], _ => trivial
  | v :: vs, i => ⟨conforms_dataType v, conformAll_attributesFrom vs (i + 1)⟩
end

end Value

namespace Row.Conforms

variable {row left right : Row} {schema lefts rights : Schema}

theorem append : ∀ {left : Row} {lefts : Schema}, left.Conforms lefts → right.Conforms rights →
    Row.Conforms (left ++ right) (lefts.merge rights)
  | [], [], _, hright => hright
  | _ :: _, _ :: _, hleft, hright => ⟨hleft.1, append hleft.2 hright⟩
  | [], _ :: _, hleft, _ => hleft.elim
  | _ :: _, [], hleft, _ => hleft.elim

theorem get : ∀ {row : Row} {schema : Schema} {i : Nat} {v : Value} {a : Attribute},
    row.Conforms schema → row[i]? = some v → schema[i]? = some a → v.Conforms a.type
  | v :: _, a :: _, 0, _, _, h, hv, ha => by
      obtain rfl : v = _ := by simpa using hv
      obtain rfl : a = _ := by simpa using ha
      exact h.1
  | _ :: _, _ :: _, i + 1, _, _, h, hv, ha => get h.2 (by simpa using hv) (by simpa using ha)
  | [], _, _, _, _, _, hv, _ => by simp at hv
  | _ :: _, [], _, _, _, h, _, _ => h.elim

/-- Only the types of a schema matter. -/
theorem of_types : ∀ {row : Row} {schema schema' : Schema}, row.Conforms schema →
    schema.map Attribute.type = schema'.map Attribute.type → row.Conforms schema'
  | [], [], [], _, _ => trivial
  | _ :: _, a :: _, b :: _, h, htypes => by
      simp only [List.map_cons, List.cons.injEq] at htypes
      exact ⟨htypes.1 ▸ h.1, of_types h.2 htypes.2⟩
  | [], _ :: _, _, h, _ => h.elim
  | _ :: _, [], _, h, _ => h.elim
  | _, [], _ :: _, _, htypes => by simp at htypes
  | _, _ :: _, [], _, htypes => by simp at htypes

end Row.Conforms

/-! ### Expressions -/

namespace Expr

variable {row : Row} {schema : Schema} {e : Expr} {v : Value} {s : Scalar}

/-- **What an expression gives is of its type.** -/
theorem Gives.conforms (h : e.Gives row v) (hrow : row.Conforms schema) {t : DataType}
    (ht : e.dataType schema = some t) : v.Conforms t := by
  cases h with
  | literal =>
      cases ht
      exact v.conforms_dataType
  | inputRef hv =>
      obtain ⟨a, ha, rfl⟩ := Option.map_eq_some_iff.mp ht
      exact hrow.get hv ha
  | comparison _ _ _ =>
      cases ht
      unfold Op.compared
      split <;> simp
  | connective _ _ => cases ht; exact Value.conforms_truth _
  | not _ => cases ht; exact Value.conforms_truth _
  | isNull _ => cases ht; simp
  | isNotNull _ => cases ht; simp

/-- **An expression that compiles over a schema has a type over it.** -/
theorem dataType_of_compile (h : Scalar.compile (some schema) e = .ok s) :
    ∃ t, e.dataType schema = some t := by
  cases e with
  | literal v => exact ⟨_, rfl⟩
  | inputRef i =>
      simp only [Scalar.compile, Code.compile] at h
      split at h
      · rename_i hi
        exact ⟨_, by rw [dataType, List.getElem?_eq_getElem hi]; rfl⟩
      · cases h
  | call op operands => exact ⟨_, rfl⟩
  | _ => simp [Scalar.compile, Code.compile, Except.map] at h

end Expr

end StreamQuery
