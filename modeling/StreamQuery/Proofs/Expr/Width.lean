/-
Widths of rows.

References are looked at twice: when an expression is compiled against a schema, and on
every row.  A compiled expression is `Covered` by a width if on rows of that width the
second look finds nothing; compiling against a schema of that width sees to it.
-/
import Mathlib.Data.List.Forall2
import StreamQuery.Expr.Scalar

namespace StreamQuery

/-! ### Computing on each of a list -/

section MapM

variable {α β ε : Type} {f : α → Except ε β} {xs : List α}

theorem mapM_ok_iff (xs : List α) : (∃ ys, xs.mapM f = .ok ys) ↔ ∀ x ∈ xs, ∃ y, f x = .ok y := by
  induction xs with
  | nil => simp [List.mapM_nil, pure, Except.pure]
  | cons x xs ih =>
      rw [List.mapM_cons, List.forall_mem_cons, ← ih]
      cases f x with
      | error e => simp [bind, Except.bind]
      | ok y => cases xs.mapM f <;> simp [bind, Except.bind, pure, Except.pure]

theorem mapM_eq_error {e : ε} (h : xs.mapM f = .error e) : ∃ x ∈ xs, f x = .error e := by
  induction xs with
  | nil => simp [List.mapM_nil, pure, Except.pure] at h
  | cons x xs ih =>
      rw [List.mapM_cons] at h
      simp only [bind, Except.bind] at h
      split at h
      · rename_i err hx
        cases h
        exact ⟨x, List.mem_cons_self, hx⟩
      · split at h
        · rename_i err hxs
          cases h
          obtain ⟨x', hx', hf⟩ := ih hxs
          exact ⟨x', List.mem_cons_of_mem _ hx', hf⟩
        · cases h

theorem mapM_eq_ok_iff {ys : List β} :
    xs.mapM f = .ok ys ↔ List.Forall₂ (fun x y => f x = .ok y) xs ys := by
  induction xs generalizing ys with
  | nil => cases ys <;> simp [pure, Except.pure]
  | cons x xs ih =>
      rw [List.mapM_cons]
      cases hx : f x with
      | error e => cases ys <;> simp [bind, Except.bind, hx]
      | ok y =>
          cases hxs : xs.mapM f with
          | error e => cases ys <;> simp [bind, Except.bind, ← ih, hx, hxs]
          | ok rest => cases ys <;> simp [bind, Except.bind, pure, Except.pure, ← ih, hx, hxs]

end MapM

/-! ### Expressions on rows of one width -/

namespace Code

/-- No reference of the code is beyond the row. -/
def Within (row : Row) (c : Code) : Prop :=
  ∀ index size, c.eval row ≠ .error (.shortRow index size)

variable {row : Row}

theorem evalConnect_within {deciding : Bool} {source : Expr} :
    ∀ {cs : List Code} {sawNull : Bool}, (∀ c ∈ cs, c.Within row) →
      ∀ index size, evalConnect row deciding source sawNull cs ≠ .error (.shortRow index size) := by
  intro cs
  induction cs with
  | nil => intro sawNull _ index size h; simp [evalConnect] at h
  | cons c cs ih =>
      intro sawNull hall index size h
      have hrest : ∀ {sawNull : Bool}, evalConnect row deciding source sawNull cs
          ≠ .error (.shortRow index size) :=
        ih (fun c' hc' => hall c' (List.mem_cons_of_mem _ hc')) index size
      simp only [evalConnect, bind, Except.bind] at h
      split at h
      · rename_i d hd
        cases h
        exact hall c List.mem_cons_self index size hd
      · split at h
        · split at h
          · cases h
          · exact hrest h
        · exact hrest h
        · cases h

/-- A call refers to nothing but what its operands refer to. -/
theorem within_ofCall {source : Expr} {op : Op} {cs : List Code} {c : Code}
    (h : ofCall source op cs = .ok c) (hall : ∀ c' ∈ cs, c'.Within row) : c.Within row := by
  intro index size heval
  unfold ofCall at h
  split at h
  · cases h
    rw [eval] at heval
    exact evalConnect_within hall index size heval
  · cases h
    rw [eval] at heval
    exact evalConnect_within hall index size heval
  · cases h
    simp only [eval, bind, Except.bind] at heval
    split at heval
    · rename_i d hd
      cases heval
      exact hall _ List.mem_cons_self index size hd
    · split at heval <;> cases heval
  · cases h
    simp only [eval, bind, Except.bind] at heval
    split at heval
    · rename_i d hd
      cases heval
      exact hall _ List.mem_cons_self index size hd
    · cases heval
  · cases h
    simp only [eval, bind, Except.bind] at heval
    split at heval
    · rename_i d hd
      cases heval
      exact hall _ List.mem_cons_self index size hd
    · cases heval
  · split at h
    · cases h
      simp only [eval, bind, Except.bind] at heval
      split at heval
      · rename_i d hd
        cases heval
        exact hall _ List.mem_cons_self index size hd
      · split at heval
        · rename_i d hd
          cases heval
          exact hall _ (List.mem_cons_of_mem _ List.mem_cons_self) index size hd
        · split at heval <;> cases heval
    · cases h
  · cases h

mutual
/-- **Compiling looks at every reference**, so that none is beyond a row at least as long as the
schema. -/
theorem within_compile {schema : Schema} (hrow : schema.length ≤ row.length) :
    ∀ {e : Expr} {c : Code}, compile (some schema) e = .ok c → c.Within row
  | .literal v, c, h => by
      intro index size heval
      rw [compile] at h
      cases h
      cases heval
  | .inputRef i, c, h => by
      intro index size heval
      rw [compile] at h
      split at h
      · rename_i hlt
        cases h
        rw [eval, List.getElem?_eq_getElem (Nat.lt_of_lt_of_le hlt hrow)] at heval
        cases heval
      · cases h
  | .call op operands, c, h => by
      simp only [compile, bind, Except.bind] at h
      split at h
      · cases h
      · rename_i cs hcs
        exact within_ofCall h (within_compileAll hrow hcs)
  | .parameter _, c, h => by
      rw [compile] at h
      · cases h
      all_goals simp
  | .outer _, c, h => by
      rw [compile] at h
      · cases h
      all_goals simp
  | .field _ _, c, h => by
      rw [compile] at h
      · cases h
      all_goals simp
theorem within_compileAll {schema : Schema} (hrow : schema.length ≤ row.length) :
    ∀ {es : List Expr} {cs : List Code}, compileAll (some schema) es = .ok cs →
      ∀ c ∈ cs, c.Within row
  | [], cs, h => by
      rw [compileAll] at h
      cases h
      intro c hc
      simp at hc
  | e :: es, cs, h => by
      simp only [compileAll, bind, Except.bind] at h
      split at h
      · cases h
      · rename_i c hc
        split at h
        · cases h
        · rename_i cs' hcs
          cases h
          intro c' hmem
          rcases List.mem_cons.mp hmem with rfl | hmem
          · exact within_compile hrow hc
          · exact within_compileAll hrow hcs c' hmem
end

end Code

namespace Scalar

/-- The expression has no reference beyond a row of the width. -/
def Covered (width : Nat) (s : Scalar) : Prop :=
  ∀ row : Row, row.length = width → s.code.Within row

theorem covered_compile {schema : Schema} {e : Expr} {s : Scalar}
    (h : compile (some schema) e = .ok s) : s.Covered schema.length := by
  intro row hrow
  unfold compile at h
  cases hc : Code.compile (some schema) e with
  | error d => rw [hc] at h; cases h
  | ok c =>
      rw [hc] at h
      cases h
      exact Code.within_compile (Nat.le_of_eq hrow.symm) hc

end Scalar

end StreamQuery
