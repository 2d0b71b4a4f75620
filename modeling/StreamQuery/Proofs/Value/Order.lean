/-
The order of values.

`Value.Less` says without computing when one value comes before another: by kind first, and inside a
kind as integers, truth values, bytes of texts, or fields of rows come one before the other; of two
rows the one comes first that does so at the first field where they differ, or that is a beginning
of the other.  It is a strict total order, and `Value.compare` decides it.
-/
import Mathlib.Order.Compare
import StreamQuery.Value

namespace StreamQuery.Value

/-- One value comes before another. -/
inductive Less : Value → Value → Prop where
  | kind {a b : Value} (h : a.rank < b.rank) : Less a b
  | int {m n : Int64} (h : m.toInt < n.toInt) : Less (.int m) (.int n)
  | bool : Less (.bool false) (.bool true)
  | string {s t : String} (h : List.Lex (· < ·) (Text.Utf8.encode s) (Text.Utf8.encode t)) :
      Less (.string s) (.string t)
  | row {as bs : List Value} (h : List.Lex Less as bs) : Less (.row as) (.row bs)

instance : LT Value := ⟨Less⟩

instance : LE Value := ⟨fun a b => a < b ∨ a = b⟩

/-! ### Comparing decides the order -/

theorem compare_bytes_eq_lt : ∀ {as bs : List UInt8},
    Ord.compare as bs = .lt ↔ List.Lex (· < ·) as bs
  | [], [] => by simp
  | [], _ :: _ => by simp
  | _ :: _, [] => by simp
  | a :: as, b :: bs => by
      rw [List.compare_cons_cons, Ordering.then_eq_lt, List.cons_lex_cons_iff, compare_bytes_eq_lt]
      simp [Std.compare_eq_lt]

theorem less_null : ¬ Less .null .null := by
  rintro ⟨h⟩
  exact Nat.lt_irrefl _ h

theorem less_int {m n : Int64} : Less (.int m) (.int n) ↔ m.toInt < n.toInt := by
  refine ⟨fun h => ?_, .int⟩
  cases h with
  | kind h => exact absurd h (Nat.lt_irrefl _)
  | int h => exact h

theorem less_bool {x y : Bool} : Less (.bool x) (.bool y) ↔ x = false ∧ y = true := by
  refine ⟨fun h => ?_, ?_⟩
  · cases h with
    | kind h => exact absurd h (Nat.lt_irrefl _)
    | bool => exact ⟨rfl, rfl⟩
  · rintro ⟨rfl, rfl⟩
    exact .bool

theorem less_string {s t : String} : Less (.string s) (.string t) ↔
    List.Lex (· < ·) (Text.Utf8.encode s) (Text.Utf8.encode t) := by
  refine ⟨fun h => ?_, .string⟩
  cases h with
  | kind h => exact absurd h (Nat.lt_irrefl _)
  | string h => exact h

theorem less_row {as bs : List Value} : Less (.row as) (.row bs) ↔ List.Lex Less as bs := by
  refine ⟨fun h => ?_, .row⟩
  cases h with
  | kind h => exact absurd h (Nat.lt_irrefl _)
  | row h => exact h

theorem Less.rank_le {a b : Value} (h : Less a b) : a.rank ≤ b.rank := by
  cases h with
  | kind h => exact Nat.le_of_lt h
  | _ => exact Nat.le_refl _

theorem compare_of_rank_ne {a b : Value} (h : a.rank ≠ b.rank) :
    compare a b = Ord.compare a.rank b.rank := by
  cases a <;> cases b <;> first | exact absurd rfl h | simp only [compare]

/-- Values of different kinds are compared by their kinds. -/
theorem compare_eq_lt_of_rank_ne {a b : Value} (h : a.rank ≠ b.rank) :
    compare a b = .lt ↔ Less a b := by
  rw [compare_of_rank_ne h, Nat.compare_eq_lt]
  exact ⟨.kind, fun hless => Nat.lt_of_le_of_ne hless.rank_le h⟩

mutual
/-- **Comparing decides which value comes first.** -/
theorem compare_eq_lt_iff : ∀ {a b : Value}, compare a b = .lt ↔ Less a b
  | .null, b => by
      cases b with
      | null => simp [compare_self, less_null]
      | _ => exact compare_eq_lt_of_rank_ne (by simp [rank])
  | .int m, b => by
      cases b with
      | int n => rw [compare, less_int, Std.compare_eq_lt]
      | _ => exact compare_eq_lt_of_rank_ne (by simp [rank])
  | .bool x, b => by
      cases b with
      | bool y =>
          rw [compare, less_bool]
          cases x <;> cases y <;> decide
      | _ => exact compare_eq_lt_of_rank_ne (by simp [rank])
  | .string s, b => by
      cases b with
      | string t => rw [compare, less_string, compare_bytes_eq_lt]
      | _ => exact compare_eq_lt_of_rank_ne (by simp [rank])
  | .row as, b => by
      cases b with
      | row bs => rw [compare, less_row, compareAll_eq_lt_iff]
      | _ => exact compare_eq_lt_of_rank_ne (by simp [rank])
theorem compareAll_eq_lt_iff : ∀ {as bs : List Value},
    compareAll as bs = .lt ↔ List.Lex Less as bs
  | [], [] => by simp [compareAll]
  | [], _ :: _ => by simp [compareAll]
  | _ :: _, [] => by simp [compareAll]
  | a :: as, b :: bs => by
      rw [compareAll, Ordering.then_eq_lt, List.cons_lex_cons_iff, compare_eq_lt_iff,
        compareAll_eq_lt_iff, compare_eq_iff]
end

theorem swap_compare_of_rank_ne {a b : Value} (h : a.rank ≠ b.rank) :
    (compare a b).swap = compare b a := by
  rw [compare_of_rank_ne h, compare_of_rank_ne h.symm, ← Std.OrientedCmp.eq_swap]

mutual
/-- Comparing the other way round gives the opposite. -/
theorem swap_compare : ∀ {a b : Value}, (compare a b).swap = compare b a
  | .null, b => by
      cases b with
      | null => rfl
      | _ => exact swap_compare_of_rank_ne (by simp [rank])
  | .int m, b => by
      cases b with
      | int n => rw [compare, compare, ← Std.OrientedCmp.eq_swap]
      | _ => exact swap_compare_of_rank_ne (by simp [rank])
  | .bool x, b => by
      cases b with
      | bool y => rw [compare, compare, ← Std.OrientedCmp.eq_swap]
      | _ => exact swap_compare_of_rank_ne (by simp [rank])
  | .string s, b => by
      cases b with
      | string t => rw [compare, compare, ← Std.OrientedCmp.eq_swap]
      | _ => exact swap_compare_of_rank_ne (by simp [rank])
  | .row as, b => by
      cases b with
      | row bs => rw [compare, compare, swap_compareAll]
      | _ => exact swap_compare_of_rank_ne (by simp [rank])
theorem swap_compareAll : ∀ {as bs : List Value}, (compareAll as bs).swap = compareAll bs as
  | [], [] => rfl
  | [], _ :: _ => rfl
  | _ :: _, [] => rfl
  | a :: as, b :: bs => by
      rw [compareAll, compareAll, Ordering.swap_then, swap_compare, swap_compareAll]
end

theorem compare_eq_gt_iff {a b : Value} : compare a b = .gt ↔ Less b a := by
  rw [← compare_eq_lt_iff, ← swap_compare, Ordering.swap_eq_gt]

/-! ### A strict total order -/

/-- What comes before a value of another kind, or behind one, does so by its kind. -/
theorem Less.trans_of_kind {a b c : Value} (hab : Less a b) (hbc : Less b c)
    (h : a.rank < b.rank ∨ b.rank < c.rank) : Less a c := by
  have hab' := hab.rank_le
  have hbc' := hbc.rank_le
  exact .kind (by omega)

mutual
theorem Less.trans : ∀ {a b c : Value}, Less a b → Less b c → Less a c
  | .null, b, c, hab, hbc => by
      cases hab with
      | kind h => exact .trans_of_kind (.kind h) hbc (.inl h)
  | .int m, b, c, hab, hbc => by
      cases hab with
      | kind h => exact .trans_of_kind (.kind h) hbc (.inl h)
      | int h =>
          cases hbc with
          | kind h' => exact .kind h'
          | int h' => exact .int (Int.lt_trans h h')
  | .bool x, b, c, hab, hbc => by
      cases hab with
      | kind h => exact .trans_of_kind (.kind h) hbc (.inl h)
      | bool =>
          cases hbc with
          | kind h' => exact .kind h'
  | .string s, b, c, hab, hbc => by
      cases hab with
      | kind h => exact .trans_of_kind (.kind h) hbc (.inl h)
      | string h =>
          cases hbc with
          | kind h' => exact .kind h'
          | string h' => exact .string (List.lt_trans h h')
  | .row as, b, c, hab, hbc => by
      cases hab with
      | kind h => exact .trans_of_kind (.kind h) hbc (.inl h)
      | row h =>
          cases hbc with
          | kind h' => exact .kind h'
          | row h' => exact .row (lex_trans h h')
theorem lex_trans : ∀ {as bs cs : List Value},
    List.Lex Less as bs → List.Lex Less bs cs → List.Lex Less as cs
  | [], _, _ :: _, _, _ => .nil
  | _, _ :: _, [], _, h => by cases h
  | [], [], [], h, _ => h
  | a :: as, [], _, h, _ => by cases h
  | a :: as, b :: bs, c :: cs, h, h' => by
      cases h with
      | rel hab =>
          cases h' with
          | rel hbc => exact .rel (hab.trans hbc)
          | cons _ => exact .rel hab
      | cons hfields =>
          cases h' with
          | rel hbc => exact .rel hbc
          | cons hfields' => exact .cons (lex_trans hfields hfields')
end

theorem Less.irrefl (a : Value) : ¬ Less a a := by
  rw [← compare_eq_lt_iff, compare_self]
  decide

/-- Of two values that are not the same one comes before the other. -/
theorem less_trichotomy (a b : Value) : Less a b ∨ a = b ∨ Less b a := by
  cases h : compare a b with
  | lt => exact .inl (compare_eq_lt_iff.mp h)
  | eq => exact .inr (.inl (compare_eq_iff.mp h))
  | gt => exact .inr (.inr (compare_eq_gt_iff.mp h))

theorem le_antisymm {a b : Value} (hab : a ≤ b) (hba : b ≤ a) : a = b := by
  obtain hab | hab := hab
  · obtain hba | hba := hba
    · exact absurd (Less.trans hab hba) (Less.irrefl a)
    · exact hba.symm
  · exact hab

theorem le_trans {a b c : Value} (hab : a ≤ b) (hbc : b ≤ c) : a ≤ c := by
  obtain hab | rfl := hab
  · obtain hbc | rfl := hbc
    · exact .inl (Less.trans hab hbc)
    · exact .inl hab
  · exact hbc

theorem le_total (a b : Value) : a ≤ b ∨ b ≤ a := by
  obtain h | rfl | h := less_trichotomy a b
  · exact .inl (.inl h)
  · exact .inl (.inr rfl)
  · exact .inr (.inl h)

/-- What does not come before a value is that value or comes behind it. -/
theorem not_less_iff {a b : Value} : ¬ a < b ↔ b ≤ a := by
  constructor
  · intro h
    obtain hless | rfl | hless := less_trichotomy a b
    · exact absurd hless h
    · exact .inr rfl
    · exact .inl hless
  · rintro (hba | rfl) hab
    · exact Less.irrefl a (Less.trans hab hba)
    · exact Less.irrefl b hab

end StreamQuery.Value
