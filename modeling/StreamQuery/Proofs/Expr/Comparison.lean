/-
Comparisons and the order of values.

The six comparisons are the relations that a total order gives: equal, before, behind, and their
complements.  `Op.Relates` says which one a comparison stands for.  Compiled comparisons look at
both sides first, and are null where a side is null; elsewhere exactly one of less, equal and
greater is true.  Swapping the sides mirrors a comparison, and negating it gives its complement, also
where it is null.
-/
import StreamQuery.Proofs.Expr.Evaluation
import StreamQuery.Proofs.Value.Order

namespace StreamQuery

namespace Op

/-- The relation between values that a comparison stands for; other operators hold of none. -/
def Relates (op : Op) (a b : Value) : Prop :=
  match op with
  | .equals => a = b
  | .notEquals => a ≠ b
  | .less => a < b
  | .lessOrEqual => a ≤ b
  | .greater => b < a
  | .greaterOrEqual => b ≤ a
  | _ => False

/-- The comparison that holds when the sides are swapped. -/
def mirror : Op → Op
  | .less => .greater
  | .lessOrEqual => .greaterOrEqual
  | .greater => .less
  | .greaterOrEqual => .lessOrEqual
  | op => op

/-- The comparison that holds when another one does not. -/
def complement : Op → Op
  | .equals => .notEquals
  | .notEquals => .equals
  | .less => .greaterOrEqual
  | .lessOrEqual => .greater
  | .greater => .lessOrEqual
  | .greaterOrEqual => .less
  | op => op

variable {op : Op} {a b : Value}

/-- **A comparison is a relation of the order.** -/
theorem compare_iff_relates : op.compare a b = true ↔ op.Relates a b := by
  have hlt : a < b ↔ Value.compare a b = .lt := Value.compare_eq_lt_iff.symm
  have hgt : b < a ↔ Value.compare a b = .gt := Value.compare_eq_gt_iff.symm
  have heq : a = b ↔ Value.compare a b = .eq := Value.compare_eq_iff.symm
  have hle : a ≤ b ↔ ¬ Value.compare a b = .gt := by rw [← hgt, Value.not_less_iff]
  have hge : b ≤ a ↔ ¬ Value.compare a b = .lt := by rw [← hlt, Value.not_less_iff]
  unfold compare
  cases op <;> simp only [Relates, hlt, hgt, heq, hle, hge, ne_eq, iff_false, holds] <;>
    cases Value.compare a b <;> decide

/-- Exactly one of less, equal and greater holds. -/
theorem count_compare (a b : Value) :
    [less.compare a b, equals.compare a b, greater.compare a b].count true = 1 := by
  unfold compare
  cases Value.compare a b <;> rfl

theorem isComparison_mirror (h : op.isComparison = true) : op.mirror.isComparison = true := by
  cases op <;> simp_all [isComparison, mirror]

theorem isComparison_complement (h : op.isComparison = true) :
    op.complement.isComparison = true := by
  cases op <;> simp_all [isComparison, complement]

theorem compare_mirror (a b : Value) : op.mirror.compare b a = op.compare a b := by
  unfold compare
  rw [← Value.swap_compare]
  cases op <;> cases Value.compare a b <;> rfl

theorem compare_complement (h : op.isComparison = true) (a b : Value) :
    op.complement.compare a b = !op.compare a b := by
  unfold compare
  cases op <;> first | (cases Value.compare a b <;> rfl) | cases h

/-! ### Comparisons with null -/

theorem compared_of_null (h : a = .null ∨ b = .null) : op.compared a b = .null := by
  obtain rfl | rfl := h <;> simp [compared, Value.isNull]

theorem compared_of_ne_null (ha : a ≠ .null) (hb : b ≠ .null) :
    op.compared a b = .bool (op.compare a b) := by
  have hnull : ∀ v : Value, v ≠ .null → ¬ v.isNull = true := by
    intro v hv
    cases v <;> simp_all [Value.isNull]
  rw [compared, if_neg]
  exact not_or.mpr ⟨hnull a ha, hnull b hb⟩

theorem compared_mirror (a b : Value) : op.mirror.compared b a = op.compared a b := by
  unfold compared
  rw [compare_mirror]
  exact if_congr Or.comm rfl rfl

/-- A comparison has a truth value, and its complement has the opposite one. -/
theorem compared_complement (h : op.isComparison = true) (a b : Value) : ∃ t : Truth,
    op.compared a b = t.value ∧ op.complement.compared a b = t.not.value := by
  unfold compared
  split
  · exact ⟨.unknown, rfl, rfl⟩
  · refine ⟨.ofBool (op.compare a b), (Truth.value_ofBool _).symm, ?_⟩
    rw [compare_complement h, ← Truth.value_ofBool]
    cases op.compare a b <;> rfl

end Op

namespace Expr

/-- **Values are totally ordered, and comparisons follow the order.**  The six comparisons of two
values are the relations of the order.  Compiled, they are all null where a side is null, and
elsewhere exactly one of less, equal and greater is true; a comparison has the value of its mirror
image with the sides swapped, and its negation that of its complement. -/
theorem comparisons_follow_order :
    ((∀ a : Value, a ≤ a) ∧ (∀ a b : Value, a ≤ b → b ≤ a → a = b) ∧
      (∀ a b c : Value, a ≤ b → b ≤ c → a ≤ c) ∧ ∀ a b : Value, a ≤ b ∨ b ≤ a) ∧
    (∀ (op : Op) (a b : Value), op.compare a b = true ↔ op.Relates a b) ∧
    ∀ (input : Option Schema) (row : Row) (left right : Expr) (a b : Value),
      left.HasValue input row a → right.HasValue input row b →
      ((a = .null ∨ b = .null) ∧ (∀ op, op.isComparison = true →
          (call op [left, right]).HasValue input row .null) ∨
        (a ≠ .null ∧ b ≠ .null) ∧ ∃ x y z : Bool,
          (call .less [left, right]).HasValue input row (.bool x) ∧
          (call .equals [left, right]).HasValue input row (.bool y) ∧
          (call .greater [left, right]).HasValue input row (.bool z) ∧
          [x, y, z].count true = 1) ∧
      ∀ op, op.isComparison = true →
        (∃ v, (call op [left, right]).HasValue input row v ∧
          (call op.mirror [right, left]).HasValue input row v) ∧
        ∃ v, (call .not [call op [left, right]]).HasValue input row v ∧
          (call op.complement [left, right]).HasValue input row v := by
  refine ⟨⟨fun a => .inr rfl, fun a b => Value.le_antisymm, fun a b c => Value.le_trans,
    Value.le_total⟩, fun op a b => Op.compare_iff_relates, ?_⟩
  intro input row left right a b hleft hright
  have hcall : ∀ op, op.isComparison = true →
      (call op [left, right]).HasValue input row (op.compared a b) :=
    fun op hop => .comparison hop hleft hright
  refine ⟨?_, fun op hop => ⟨?_, ?_⟩⟩
  · by_cases hnull : a = .null ∨ b = .null
    · refine .inl ⟨hnull, fun op hop => ?_⟩
      rw [← Op.compared_of_null hnull]
      exact hcall op hop
    · obtain ⟨ha, hb⟩ := not_or.mp hnull
      have hbool : ∀ op, op.isComparison = true →
          (call op [left, right]).HasValue input row (.bool (op.compare a b)) := by
        intro op hop
        rw [← Op.compared_of_ne_null ha hb]
        exact hcall op hop
      exact .inr ⟨⟨ha, hb⟩, _, _, _, hbool .less rfl, hbool .equals rfl, hbool .greater rfl,
        Op.count_compare a b⟩
  · refine ⟨op.compared a b, hcall op hop, ?_⟩
    rw [← Op.compared_mirror]
    exact .comparison (Op.isComparison_mirror hop) hright hleft
  · obtain ⟨t, ht, hcomplement⟩ := Op.compared_complement hop a b
    have hvalue : (call op [left, right]).HasValue input row t.value := ht ▸ hcall op hop
    exact ⟨t.not.value, hvalue.not, hcomplement ▸ hcall _ (Op.isComparison_complement hop)⟩

/-- A nested row, and one that it begins. -/
def rowAndLonger : Row :=
  [.row [.row []], .row [.row [], .null]]

/-- An integer is below every text and hence below every row.  A nested row is less than one that it
begins; then it is neither equal to it nor greater, the longer one is greater, and it is false that
it is not less and that it is greater or equal.  A comparison with null is null. -/
theorem comparisons_follow_order_of_rows :
    Value.int 5 ≤ Value.row [.null] ∧
      (call .less [.inputRef 0, .inputRef 1]).HasValue none rowAndLonger (.bool true) ∧
      (call .equals [.inputRef 0, .inputRef 1]).HasValue none rowAndLonger (.bool false) ∧
      (call .greater [.inputRef 0, .inputRef 1]).HasValue none rowAndLonger (.bool false) ∧
      (call .greater [.inputRef 1, .inputRef 0]).HasValue none rowAndLonger (.bool true) ∧
      (call .not [call .less [.inputRef 0, .inputRef 1]]).HasValue none rowAndLonger (.bool false) ∧
      (call .greaterOrEqual [.inputRef 0, .inputRef 1]).HasValue none rowAndLonger (.bool false) ∧
      (call .notEquals [.literal .null, .inputRef 0]).HasValue none [.int 1] .null := by
  obtain ⟨⟨-, -, htrans, -⟩, -, hcompiled⟩ := comparisons_follow_order
  have hless : (call .less [.inputRef 0, .inputRef 1]).HasValue none rowAndLonger (.bool true) :=
    ⟨_, rfl, by cbv⟩
  obtain ⟨⟨hnull, -⟩ | ⟨-, x, y, z, hx, hy, hz, hcount⟩, hrows⟩ :=
    hcompiled none rowAndLonger (.inputRef 0) (.inputRef 1) (.row [.row []]) (.row [.row [], .null])
      ⟨_, rfl, rfl⟩ ⟨_, rfl, rfl⟩
  · rcases hnull with hnull | hnull <;> cases hnull
  obtain rfl : x = true := Value.bool.inj (hx.unique hless)
  obtain ⟨rfl, rfl⟩ : y = false ∧ z = false := by
    revert hcount
    cases y <;> cases z <;> decide
  obtain ⟨v, hv, hmirror⟩ := (hrows .less rfl).1
  obtain rfl := hv.unique hless
  obtain ⟨w, hw, hcomplement⟩ := (hrows .less rfl).2
  obtain rfl : w = .bool false := hw.unique ⟨_, rfl, by cbv⟩
  obtain ⟨hnull | ⟨⟨hne, -⟩, -⟩, -⟩ := hcompiled none [.int 1] (.literal .null) (.inputRef 0) _ _
    ⟨_, rfl, rfl⟩ ⟨_, rfl, rfl⟩
  · exact ⟨htrans _ (.string "a") _ (.inl (.kind (by decide))) (.inl (.kind (by decide))),
      hless, hy, hz, hmirror, hw, hcomplement, hnull.2 .notEquals rfl⟩
  · exact absurd rfl hne

end Expr

end StreamQuery
