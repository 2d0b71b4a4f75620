/-
The value of an expression on a row.

`Expr.HasValue` joins the two ends of an expression's way: it compiles, over a schema or without
one, and what was compiled has the value on the row.  Calls are described by their operands: a call
compiles exactly if its operands do and it has as many of them as its operator takes, and its value
is found from theirs.
-/
import StreamQuery.Proofs.Expr.Defect

namespace StreamQuery

instance : Inhabited Truth := ⟨.unknown⟩

namespace Scalar

variable {input : Option Schema} {row : Row} {e : Expr} {s : Scalar} {v : Value}

/-- What is compiled has the value that the expression gives. -/
theorem eval_eq_ok_iff (h : compile input e = .ok s) : s.eval row = .ok v ↔ e.Gives row v := by
  have hnone : compile none e = .ok s := by
    cases input with
    | none => exact h
    | some schema => exact compile_none_of_some h
  unfold compile at hnone
  cases hc : Code.compile none e with
  | error d => simp [hc, Except.map] at hnone
  | ok c =>
      obtain rfl : (⟨e, c⟩ : Scalar) = s := by simpa [hc, Except.map] using hnone
      have hends : e.Ends row := Expr.ends_of_admitted (Code.compile_ok_iff.mp ⟨c, hc⟩)
      exact (Code.computes_compile hc).eval_eq_ok_iff hends

/-- A call compiles exactly if its operands do and it has as many as its operator takes. -/
theorem compile_call_ok_iff {op : Op} {es : List Expr} :
    (∃ s, compile input (.call op es) = .ok s) ↔
      op.Takes es.length ∧ ∀ e ∈ es, ∃ s, compile input e = .ok s := by
  have hall : ∀ es, (∀ e' ∈ Expr.visitedAll es, e'.defect? input = none) ↔
      ∀ e ∈ es, ∀ e' ∈ e.visited, e'.defect? input = none := by
    intro es
    induction es with
    | nil => simp [Expr.visitedAll]
    | cons e es ih => rw [Expr.visitedAll, List.forall_mem_append, List.forall_mem_cons, ih]
  simp only [compile_ok_iff_code, Code.compile_ok_iff_visited]
  rw [Expr.visited, List.forall_mem_append, hall, and_comm]
  simp [Expr.defect?]

end Scalar

namespace Expr

/-- An expression compiles, and it has the value on the row. -/
def HasValue (input : Option Schema) (row : Row) (e : Expr) (v : Value) : Prop :=
  ∃ s, Scalar.compile input e = .ok s ∧ s.eval row = .ok v

variable {input : Option Schema} {row : Row} {e : Expr} {es : List Expr} {op : Op} {v w : Value}

theorem hasValue_iff :
    e.HasValue input row v ↔ (∃ s, Scalar.compile input e = .ok s) ∧ e.Gives row v := by
  constructor
  · rintro ⟨s, hs, hv⟩
    exact ⟨⟨s, hs⟩, (Scalar.eval_eq_ok_iff hs).mp hv⟩
  · rintro ⟨⟨s, hs⟩, hv⟩
    exact ⟨s, hs, (Scalar.eval_eq_ok_iff hs).mpr hv⟩

theorem HasValue.unique (h : e.HasValue input row v) (h' : e.HasValue input row w) : v = w := by
  obtain ⟨s, hs, hv⟩ := h
  obtain ⟨s', hs', hw⟩ := h'
  rw [hs] at hs'
  cases hs'
  rw [hv] at hw
  exact Except.ok.inj hw

/-- A call has the value that it gives if its operands have values. -/
theorem HasValue.call (htakes : op.Takes es.length) (hes : ∀ e ∈ es, ∃ v, e.HasValue input row v)
    (h : (call op es).Gives row v) : (call op es).HasValue input row v := by
  rw [hasValue_iff, Scalar.compile_call_ok_iff]
  refine ⟨⟨htakes, fun e he => ?_⟩, h⟩
  obtain ⟨v, hv⟩ := hes e he
  exact (hasValue_iff.mp hv).1

/-- The value of a connective is Kleene's join of the truth values of its operands. -/
theorem HasValue.connective {b : Bool} {ts : List Truth} (hop : op.deciding? = some b)
    (hne : es ≠ []) (hes : List.Forall₂ (fun e t => e.HasValue input row (Truth.value t)) es ts) :
    (Expr.call op es).HasValue input row (Truth.joinAll b ts).value := by
  have hgives : List.Forall₂ (fun e t => Gives row e (Truth.value t)) es ts :=
    hes.imp fun _ _ h => (hasValue_iff.mp h).2
  obtain ⟨seen, hseen, hjoin⟩ := looks_of_gives b hgives
  refine .call ?_ (fun e he => ?_) (hjoin ▸ .connective hop hseen)
  · have hlength : 1 ≤ es.length := List.length_pos_of_ne_nil hne
    cases op <;> simp_all [Op.deciding?, Op.Takes]
  · clear hne hgives hseen hjoin
    induction hes with
    | nil => cases he
    | cons hfirst _ ih =>
        obtain rfl | he := List.mem_cons.mp he
        · exact ⟨_, hfirst⟩
        · exact ih he

theorem HasValue.not {t : Truth} (h : e.HasValue input row t.value) :
    (Expr.call .not [e]).HasValue input row t.not.value :=
  .call rfl (by simpa using ⟨_, h⟩) (.not (hasValue_iff.mp h).2)

theorem HasValue.isNull (h : e.HasValue input row v) :
    (Expr.call .isNull [e]).HasValue input row (.bool v.isNull) :=
  .call rfl (by simpa using ⟨_, h⟩) (.isNull (hasValue_iff.mp h).2)

theorem HasValue.comparison {left right : Expr} (hop : op.isComparison = true)
    (hleft : left.HasValue input row v) (hright : right.HasValue input row w) :
    (Expr.call op [left, right]).HasValue input row (op.compared v w) := by
  refine .call ?_ (by simpa using ⟨⟨_, hleft⟩, ⟨_, hright⟩⟩)
    (.comparison hop (hasValue_iff.mp hleft).2 (hasValue_iff.mp hright).2)
  cases op <;> simp_all [Op.isComparison, Op.Takes]

end Expr

end StreamQuery
