/-
The defect for which an expression is refused.

Compiling goes through an expression from the inside out and from left to right: it looks at the
operands of a call one after the other, and only then at how many there are.  `Expr.visited` lists
the nodes in that order, and `Expr.defect?` says what is wrong with one of them whatever becomes of
its operands.  An expression is refused for the first defect on that list, and it compiles exactly
if there is none.

All that a schema adds is a look at the references.  So an expression compiles over a schema exactly
if it compiles without one and refers to nothing beyond the schema, and then to the same code.
-/
import StreamQuery.Proofs.Expr.ThreeValued
import StreamQuery.Proofs.Expr.Width
import StreamQuery.Proofs.Plan.Meaning

namespace StreamQuery

instance (op : Op) (n : Nat) : Decidable (op.Takes n) :=
  match op with
  | .and | .or => inferInstanceAs (Decidable (1 ≤ n))
  | .not | .isNull | .isNotNull => inferInstanceAs (Decidable (n = 1))
  | .equals | .notEquals | .less | .lessOrEqual | .greater | .greaterOrEqual =>
    inferInstanceAs (Decidable (n = 2))

namespace Expr

mutual
/-- The nodes of an expression in the order in which they are looked at: operands before their
call.  A field of a row is refused as a whole, so nothing inside it is looked at. -/
def visited : Expr → List Expr
  | .call op operands => visitedAll operands ++ [.call op operands]
  | e => [e]
/-- The nodes of expressions in the order in which they are looked at. -/
def visitedAll : List Expr → List Expr
  | [] => []
  | e :: es => visited e ++ visitedAll es
end

/-- What is wrong with a node, over rows of a schema if it is known.  Nothing is said of the
operands of a call. -/
def defect? (input : Option Schema) : Expr → Option CompileDefect
  | .literal _ => none
  | .inputRef index =>
    match input with
    | none => none
    | some schema => if index.toNat < schema.length then none else some (.beyondInput index schema)
  | .call op operands =>
    if op.Takes operands.length then none else some (.operandCount op (.call op operands))
  | e => some (.unsupported e)

/-- The first defect that is met. -/
def firstDefect? (input : Option Schema) (e : Expr) : Option CompileDefect :=
  e.visited.findSome? (defect? input)

variable {input : Option Schema} {schema : Schema} {e : Expr} {op : Op} {es : List Expr}

theorem firstDefect?_call : (call op es).firstDefect? input
    = ((visitedAll es).findSome? (defect? input)).or ((call op es).defect? input) := by
  unfold firstDefect?
  rw [visited, List.findSome?_append]
  cases h : (call op es).defect? input <;> simp [h]

/-- Of the nodes that are looked at, only a reference can be defective over a schema and not
without one. -/
theorem defect?_some_eq_none : e.defect? (some schema) = none ↔
    e.defect? none = none ∧ ∀ i, e = .inputRef i → i.toNat < schema.length := by
  cases e <;> simp [defect?]

/-! ### Which nodes are looked at -/

mutual
theorem visited_subset : ∀ e : Expr, e.visited ⊆ e.nodes
  | .call op operands => by
      rw [visited, nodes]
      refine List.append_subset.mpr ⟨?_, by simp⟩
      exact List.Subset.trans (visitedAll_subset operands) (List.subset_cons_self _ _)
  | .field _ _ => by simp [visited, nodes]
  | .literal _ => by simp [visited, nodes]
  | .inputRef _ => by simp [visited, nodes]
  | .parameter _ => by simp [visited, nodes]
  | .outer _ => by simp [visited, nodes]
theorem visitedAll_subset : ∀ es : List Expr, visitedAll es ⊆ nodesAll es
  | [] => List.Subset.refl _
  | e :: es => by
      rw [visitedAll, nodesAll]
      exact List.append_subset.mpr
        ⟨List.Subset.trans (visited_subset e) (List.subset_append_left _ _),
          List.Subset.trans (visitedAll_subset es) (List.subset_append_right _ _)⟩
end

mutual
/-- In an expression that has no defect without a schema, every node is looked at. -/
theorem nodes_subset : ∀ {e : Expr}, (∀ e' ∈ e.visited, e'.defect? none = none) →
    e.nodes ⊆ e.visited
  | .call op operands, h => by
      rw [visited, List.forall_mem_append] at h
      rw [visited, nodes, List.cons_subset]
      exact ⟨by simp, List.Subset.trans (nodesAll_subset h.1) (List.subset_append_left _ _)⟩
  | .field e name, h => by
      have hnone := h (.field e name) (by simp [visited])
      simp [defect?] at hnone
  | .literal _, _ => by simp [visited, nodes]
  | .inputRef _, _ => by simp [visited, nodes]
  | .parameter _, _ => by simp [visited, nodes]
  | .outer _, _ => by simp [visited, nodes]
theorem nodesAll_subset : ∀ {es : List Expr}, (∀ e' ∈ visitedAll es, e'.defect? none = none) →
    nodesAll es ⊆ visitedAll es
  | [], _ => List.Subset.refl _
  | e :: es, h => by
      rw [visitedAll, List.forall_mem_append] at h
      rw [visitedAll, nodesAll]
      exact List.append_subset.mpr
        ⟨List.Subset.trans (nodes_subset h.1) (List.subset_append_left _ _),
          List.Subset.trans (nodesAll_subset h.2) (List.subset_append_right _ _)⟩
end

end Expr

/-! ### Compiling meets the first defect -/

namespace Code

variable {input : Option Schema} {schema : Schema} {e : Expr} {d : CompileDefect}

/-- A call whose operands are compiled is only refused for their number. -/
theorem operandCount_of_ofCall {source : Expr} {op : Op} {cs : List Code}
    (h : ofCall source op cs = .error d) : d = .operandCount op source := by
  unfold ofCall at h
  split at h
  · cases h
  · cases h
  · cases h
  · cases h
  · cases h
  · split at h <;> cases h
    rfl
  · cases h
    rfl

theorem ofCall_eq_error_iff {op : Op} {es : List Expr} {cs : List Code}
    (hlength : es.length = cs.length) : ofCall (.call op es) op cs = .error d ↔
      (Expr.call op es).defect? input = some d := by
  have hok : (∃ c, ofCall (.call op es) op cs = .ok c) ↔ op.Takes es.length :=
    hlength ▸ ofCall_ok_iff
  cases hcall : ofCall (.call op es) op cs with
  | ok c =>
      have htakes : op.Takes es.length := hok.mp ⟨c, hcall⟩
      simp [Expr.defect?, htakes]
  | error d' =>
      have htakes : ¬ op.Takes es.length := by
        intro h
        obtain ⟨c, hc⟩ := hok.mpr h
        rw [hcall] at hc
        cases hc
      rw [operandCount_of_ofCall hcall]
      simp [Expr.defect?, htakes]

mutual
/-- **An expression is refused for its first defect.** -/
theorem compile_eq_error_iff : ∀ {e : Expr} {d : CompileDefect},
    compile input e = .error d ↔ e.firstDefect? input = some d
  | .call op operands, d => by
      rw [Expr.firstDefect?_call, compile]
      cases hcs : compileAll input operands with
      | error d' =>
          rw [compileAll_eq_error_iff.mp hcs]
          simp [bind, Except.bind]
      | ok cs =>
          have hnone : (Expr.visitedAll operands).findSome? (Expr.defect? input) = none := by
            rw [Option.eq_none_iff_forall_ne_some]
            intro d' hd'
            rw [compileAll_eq_error_iff.mpr hd'] at hcs
            cases hcs
          rw [hnone, Option.none_or]
          exact ofCall_eq_error_iff (length_compileAll hcs)
  | .literal v, d => by simp [compile, Expr.firstDefect?, Expr.visited, Expr.defect?]
  | .inputRef i, d => by
      cases input with
      | none => simp [compile, Expr.firstDefect?, Expr.visited, Expr.defect?]
      | some schema =>
          by_cases hi : i.toNat < schema.length <;>
            simp [compile, Expr.firstDefect?, Expr.visited, Expr.defect?, hi]
  | .parameter _, d => by simp [compile, Expr.firstDefect?, Expr.visited, Expr.defect?]
  | .outer _, d => by simp [compile, Expr.firstDefect?, Expr.visited, Expr.defect?]
  | .field _ _, d => by simp [compile, Expr.firstDefect?, Expr.visited, Expr.defect?]
theorem compileAll_eq_error_iff : ∀ {es : List Expr} {d : CompileDefect},
    compileAll input es = .error d ↔
      (Expr.visitedAll es).findSome? (Expr.defect? input) = some d
  | [], d => by simp [compileAll, Expr.visitedAll]
  | e :: es, d => by
      rw [compileAll, Expr.visitedAll, List.findSome?_append, ← Expr.firstDefect?]
      cases hc : compile input e with
      | error d' =>
          rw [compile_eq_error_iff.mp hc]
          simp [bind, Except.bind]
      | ok c =>
          have hnone : e.firstDefect? input = none := by
            rw [Option.eq_none_iff_forall_ne_some]
            intro d' hd'
            rw [compile_eq_error_iff.mpr hd'] at hc
            cases hc
          rw [hnone, Option.none_or, ← compileAll_eq_error_iff]
          cases compileAll input es <;> simp [bind, Except.bind, pure, Except.pure]
end

/-- An expression compiles exactly if nothing is wrong with any node that is looked at. -/
theorem compile_ok_iff_visited :
    (∃ c, compile input e = .ok c) ↔ ∀ e' ∈ e.visited, e'.defect? input = none := by
  rw [← List.findSome?_eq_none_iff, ← Expr.firstDefect?, Option.eq_none_iff_forall_ne_some]
  constructor
  · rintro ⟨c, hc⟩ d hd
    rw [compile_eq_error_iff.mpr hd] at hc
    cases hc
  · intro hnone
    cases hc : compile input e with
    | ok c => exact ⟨c, rfl⟩
    | error d => exact absurd (compile_eq_error_iff.mp hc) (hnone d)

/-- **A schema adds the look at the references, and nothing else.** -/
theorem compile_some_ok_iff : (∃ c, compile (some schema) e = .ok c) ↔
    (∃ c, compile none e = .ok c) ∧ ∀ i, .inputRef i ∈ e.nodes → i.toNat < schema.length := by
  simp only [compile_ok_iff_visited, Expr.defect?_some_eq_none]
  constructor
  · intro h
    have hnone : ∀ e' ∈ e.visited, e'.defect? none = none := fun e' he' => (h e' he').1
    exact ⟨hnone, fun i hi => (h _ (Expr.nodes_subset hnone hi)).2 i rfl⟩
  · rintro ⟨hnone, hrefs⟩ e' he'
    refine ⟨hnone e' he', ?_⟩
    rintro i rfl
    exact hrefs i (Expr.visited_subset e he')

end Code

namespace Scalar

variable {input : Option Schema} {e : Expr} {d : CompileDefect}

theorem compile_ok_iff_code : (∃ s, compile input e = .ok s) ↔ ∃ c, Code.compile input e = .ok c := by
  unfold compile
  cases Code.compile input e <;> simp [Except.map]

theorem compile_error_iff_code : compile input e = .error d ↔ Code.compile input e = .error d := by
  unfold compile
  cases Code.compile input e <;> simp [Except.map]

/-- **Compiling over a schema and without one agree.**  An expression compiles over a schema exactly
if it compiles without one and all its references are inside the schema.  What is compiled either way
computes the same on every row, and over a schema no reference is beyond a row that is as long as
the schema.  Either way an expression is refused for the first defect, operands before their call and
from left to right. -/
theorem checked_agrees_with_unchecked (e : Expr) (schema : Schema) :
    ((∃ s, compile (some schema) e = .ok s) ↔
        (∃ s, compile none e = .ok s) ∧ ∀ i, .inputRef i ∈ e.nodes → i.toNat < schema.length) ∧
      (∀ checked unchecked, compile (some schema) e = .ok checked →
        compile none e = .ok unchecked → ∀ row, checked.eval row = unchecked.eval row) ∧
      (∀ checked, compile (some schema) e = .ok checked → ∀ row : Row,
        schema.length ≤ row.length → ∀ i size, checked.eval row ≠ .error (.shortRow i size)) ∧
      ∀ input d, compile input e = .error d ↔ e.firstDefect? input = some d := by
  refine ⟨?_, ?_, ?_, ?_⟩
  · rw [compile_ok_iff_code, compile_ok_iff_code]
    exact Code.compile_some_ok_iff
  · intro checked unchecked hchecked hunchecked row
    obtain rfl : checked = unchecked := by
      simpa [hunchecked] using (compile_none_of_some hchecked).symm
    rfl
  · intro checked hchecked row hrow
    unfold compile at hchecked
    cases hc : Code.compile (some schema) e with
    | error d => simp [hc, Except.map] at hchecked
    | ok c =>
        obtain rfl : (⟨e, c⟩ : Scalar) = checked := by simpa [hc, Except.map] using hchecked
        exact Code.within_compile hrow hc
  · intro input d
    rw [compile_error_iff_code]
    exact Code.compile_eq_error_iff

/-- Over two columns a negation of the second compiles and agrees with the unchecked one on a short
row and on a long one.  A conjunction of nothing is refused before the operand behind it and before
the call that holds both. -/
theorem checked_agrees_with_unchecked_of_two_columns :
    (∃ checked unchecked,
      compile (some [⟨"a", .int⟩, ⟨"b", .bool⟩]) (.call .not [.inputRef 1]) = .ok checked ∧
        compile none (.call .not [.inputRef 1]) = .ok unchecked ∧
        checked.eval [.int 1] = unchecked.eval [.int 1] ∧
        checked.eval [.int 1, .null, .int 7] ≠ .error (.shortRow 1 3)) ∧
      compile none (.call .isNull [.call .and [], .outer "t"])
        = .error (.operandCount .and (.call .and [])) := by
  obtain ⟨hcompiles, hsame, hinside, -⟩ :=
    checked_agrees_with_unchecked (.call .not [.inputRef 1]) [⟨"a", .int⟩, ⟨"b", .bool⟩]
  obtain ⟨-, -, -, hdefect⟩ :=
    checked_agrees_with_unchecked (.call .isNull [.call .and [], .outer "t"]) []
  have hunchecked : compile none (.call .not [.inputRef 1])
      = .ok ⟨.call .not [.inputRef 1], .negate (.fetch 1) (.call .not [.inputRef 1])⟩ := rfl
  obtain ⟨checked, hchecked⟩ := hcompiles.mpr ⟨⟨_, hunchecked⟩, by
    intro i hi
    obtain rfl : i = 1 := by simpa [Expr.nodes, Expr.nodesAll] using hi
    decide⟩
  exact ⟨⟨checked, _, hchecked, hunchecked, hsame _ _ hchecked hunchecked _,
    hinside _ hchecked _ (by decide) _ _⟩, (hdefect none _).mpr rfl⟩

end Scalar

end StreamQuery
