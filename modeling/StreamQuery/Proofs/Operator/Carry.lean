/-
What an operator carries from its inputs to its output.

`Stage.Carries` is about any property of rows that each input promises and any that the
output has to keep, and about the defects that are admitted.  It says of a stage that the
rows it holds are as promised, that what its operator makes of promised rows, a
selection, a computation, a pair, is as the output has to be, and that nothing but an
admitted defect comes up on the way.  A stage that carries a property sends rows that have
it, stops only at an admitted defect, goes on carrying the property, and may receive any
row that its input promises.
-/
import StreamQuery.Proofs.Expr.Width
import StreamQuery.Proofs.Operator.Stream

namespace StreamQuery

/-- On such rows the expression lacks a value for no other reason than an admitted one. -/
def Scalar.FailsOnly (s : Scalar) (rows : Row → Prop) (admitted : RunDefect → Prop) : Prop :=
  ∀ row d, rows row → s.eval row = .error d → admitted (.evaluation d)

theorem Scalar.FailsOnly.isTrue {s : Scalar} {rows : Row → Prop} {admitted : RunDefect → Prop}
    (h : s.FailsOnly rows admitted) {row : Row} (hrow : rows row) {d : EvalDefect}
    (hd : s.isTrue row = .error d) : admitted (.evaluation d) := by
  unfold Scalar.isTrue at hd
  cases heval : s.eval row with
  | ok v => rw [heval] at hd; cases hd
  | error d' =>
      rw [heval] at hd
      cases hd
      exact h row d hrow heval

/-- The rows that begin with one row and end with another. -/
def Row.Paired (lefts rights : Row → Prop) (row : Row) : Prop :=
  ∃ l r, lefts l ∧ rights r ∧ row = l ++ r

namespace Stage

/-- Rows that the inputs promise become rows that the output keeps, and only admitted defects come
up. -/
def Carries (ins : Nat → Row → Prop) (out : Row → Prop) (admitted : RunDefect → Prop) :
    Stage → Prop
  | .values items =>
    (∀ r, .row r ∈ items → out r) ∧ (.endOfStream ∈ items → admitted (.sending .closingMark))
  | .filter condition row =>
    (∀ r, ins 0 r → out r) ∧ condition.FailsOnly (ins 0) admitted ∧ ∀ r ∈ row, ins 0 r
  | .project exprs row =>
    (∀ r vs, ins 0 r → (exprs.mapM fun e => e.eval r) = .ok vs → out vs) ∧
      (∀ e ∈ exprs, e.FailsOnly (ins 0) admitted) ∧ ∀ r ∈ row, ins 0 r
  | .buffer condition right =>
    (∀ row, Row.Paired (ins 0) (ins 1) row → out row) ∧
      condition.FailsOnly (Row.Paired (ins 0) (ins 1)) admitted ∧ ∀ r ∈ right, ins 1 r
  | .pair condition right left rest =>
    (∀ row, Row.Paired (ins 0) (ins 1) row → out row) ∧
      condition.FailsOnly (Row.Paired (ins 0) (ins 1)) admitted ∧ (∀ r ∈ right, ins 1 r) ∧
        ∀ r ∈ rest, Row.Paired (ins 0) (ins 1) (left ++ r)
  | .relay _ row => (∀ r, ins 0 r → out r) ∧ (∀ r, ins 1 r → out r) ∧ ∀ r ∈ row, out r
  | .closing => True

variable {ins : Nat → Row → Prop} {out : Row → Prop} {admitted : RunDefect → Prop}
  {s after : Stage} {row : Row} {d : RunDefect}

section Pair

variable {condition : Scalar} {right rest : List Row} {left : Row}

theorem carries_nextPair (h : nextPair condition right left rest = .send row after)
    (hcarries : (Stage.pair condition right left rest).Carries ins out admitted) :
    out row ∧ after.Carries ins out admitted := by
  induction rest with
  | nil => simp [nextPair] at h
  | cons r rest ih =>
      obtain ⟨hpair, hfails, hright, hrest⟩ := hcarries
      obtain ⟨hfirst, hlater⟩ := List.forall_mem_cons.mp hrest
      rw [nextPair] at h
      split at h
      · cases h
      · cases h
        exact ⟨hpair _ hfirst, hpair, hfails, hright, hlater⟩
      · exact ih h ⟨hpair, hfails, hright, hlater⟩

theorem admitted_nextPair (h : nextPair condition right left rest = .fail d)
    (hcarries : (Stage.pair condition right left rest).Carries ins out admitted) :
    admitted d := by
  induction rest with
  | nil => simp [nextPair] at h
  | cons r rest ih =>
      obtain ⟨hpair, hfails, hright, hrest⟩ := hcarries
      obtain ⟨hfirst, hlater⟩ := List.forall_mem_cons.mp hrest
      rw [nextPair] at h
      split at h
      · rename_i hd
        cases h
        exact hfails.isTrue hfirst hd
      · cases h
      · exact ih h ⟨hpair, hfails, hright, hlater⟩

end Pair

/-- **What a stage sends is as its output has to be**, and so is what it will send. -/
theorem Carries.send (hcarries : s.Carries ins out admitted) (h : s.want = .send row after) :
    out row ∧ after.Carries ins out admitted := by
  cases s with
  | values items =>
      obtain ⟨hrows, hmark⟩ := hcarries
      match items with
      | [] => simp [want] at h
      | .endOfStream :: items => simp [want] at h
      | .row r :: items =>
          cases h
          exact ⟨hrows row List.mem_cons_self,
            fun r hr => hrows r (List.mem_cons_of_mem _ hr),
            fun hm => hmark (List.mem_cons_of_mem _ hm)⟩
  | filter condition held =>
      cases held with
      | none => simp [want] at h
      | some r =>
          obtain ⟨hpass, hfails, hheld⟩ := hcarries
          simp only [want] at h
          split at h <;> cases h
          exact ⟨hpass row (hheld row rfl), hpass, hfails, fun r hr => by cases hr⟩
  | project exprs held =>
      cases held with
      | none => simp [want] at h
      | some r =>
          obtain ⟨hcompute, hfails, hheld⟩ := hcarries
          simp only [want] at h
          split at h
          · cases h
          · rename_i vs hvs
            cases h
            exact ⟨hcompute r row (hheld r rfl) hvs, hcompute, hfails, fun r hr => by cases hr⟩
  | buffer condition right => simp [want] at h
  | pair condition right left rest => exact carries_nextPair (by simpa [want] using h) hcarries
  | relay second held =>
      cases held with
      | none => simp [want] at h
      | some r =>
          obtain ⟨hfirst, hsecond, hheld⟩ := hcarries
          cases h
          exact ⟨hheld row rfl, hfirst, hsecond, fun r hr => by cases hr⟩
  | closing => simp [want] at h

/-- **A stage stops only at an admitted defect.** -/
theorem Carries.fail (hcarries : s.Carries ins out admitted) (h : s.want = .fail d) :
    admitted d := by
  cases s with
  | values items =>
      match items with
      | [] => simp [want] at h
      | .row r :: items => simp [want] at h
      | .endOfStream :: items =>
          cases h
          exact hcarries.2 List.mem_cons_self
  | filter condition held =>
      cases held with
      | none => simp [want] at h
      | some r =>
          obtain ⟨-, hfails, hheld⟩ := hcarries
          simp only [want] at h
          split at h
          · rename_i hd
            cases h
            exact hfails.isTrue (hheld r rfl) hd
          · cases h
          · cases h
  | project exprs held =>
      cases held with
      | none => simp [want] at h
      | some r =>
          obtain ⟨-, hfails, hheld⟩ := hcarries
          simp only [want] at h
          split at h
          · rename_i hd
            cases h
            obtain ⟨e, he, heval⟩ := mapM_eq_error hd
            exact hfails e he r _ (hheld r rfl) heval
          · cases h
  | buffer condition right => simp [want] at h
  | pair condition right left rest => exact admitted_nextPair (by simpa [want] using h) hcarries
  | relay second held => cases held <;> simp [want] at h
  | closing => simp [want] at h

/-- **A stage may receive what the input it asks for promises.** -/
theorem Carries.accept {input : Nat} {item : Item} (hcarries : s.Carries ins out admitted)
    (h : s.want = .receive input) (hitem : ∀ row, item = .row row → ins input row) :
    (s.accept item).Carries ins out admitted := by
  cases s with
  | values items => exact absurd h want_values_ne_receive
  | filter condition held =>
      obtain ⟨hpass, hfails, -⟩ := hcarries
      obtain rfl : input = 0 := by
        cases held with
        | none => cases h; rfl
        | some r => simp only [want] at h; split at h <;> cases h; rfl
      cases item with
      | endOfStream => trivial
      | row r =>
          refine ⟨hpass, hfails, ?_⟩
          intro r' hr'
          cases hr'
          exact hitem r rfl
  | project exprs held =>
      obtain ⟨hcompute, hfails, -⟩ := hcarries
      obtain rfl : input = 0 := by
        cases held with
        | none => cases h; rfl
        | some r => simp only [want] at h; split at h <;> cases h
      cases item with
      | endOfStream => trivial
      | row r =>
          refine ⟨hcompute, hfails, ?_⟩
          intro r' hr'
          cases hr'
          exact hitem r rfl
  | buffer condition right =>
      obtain ⟨hpair, hfails, hright⟩ := hcarries
      cases h
      cases item with
      | endOfStream =>
          exact ⟨hpair, hfails, fun r hr => hright r (List.mem_reverse.mp hr), by simp⟩
      | row r => exact ⟨hpair, hfails, List.forall_mem_cons.mpr ⟨hitem r rfl, hright⟩⟩
  | pair condition right left rest =>
      obtain ⟨hpair, hfails, hright, -⟩ := hcarries
      obtain rfl : input = 0 := (through_of_nextPair_receive (by simpa [want] using h) []).1
      cases item with
      | endOfStream => trivial
      | row l =>
          exact ⟨hpair, hfails, hright, fun r hr => ⟨l, r, hitem l rfl, hright r hr, rfl⟩⟩
  | relay second held =>
      obtain ⟨hfirst, hsecond, -⟩ := hcarries
      cases held with
      | some r => simp [want] at h
      | none =>
          cases h
          cases item with
          | endOfStream =>
              cases second
              · exact ⟨hfirst, hsecond, fun r hr => by cases hr⟩
              · trivial
          | row r =>
              refine ⟨hfirst, hsecond, ?_⟩
              intro r' hr'
              cases hr'
              cases second
              · exact hfirst r (hitem r rfl)
              · exact hsecond r (hitem r rfl)
  | closing => simp [want] at h

end Stage

end StreamQuery
