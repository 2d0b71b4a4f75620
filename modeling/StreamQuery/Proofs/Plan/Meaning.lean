/-
What a plan means.

`Plan.Yields` says which rows come out of a node, by plain recursion from the node
to the nodes that feed it: a table or inline rows are the stored rows in order, a
filter keeps the rows on which its condition is true, a projection computes one row
for each row, a join goes through the left rows and for each of them through the
right rows, and a union is one input behind the other.  Nothing here knows of
operators that run, of channels or of schemas; expressions are compiled without
looking at a schema.

A node of which an expression has no value on one of the rows yields nothing, and no more does
a node with a closing mark among its stored rows; that is what `Plan.Breaks` says, with the defect.
-/
import StreamQuery.Catalog
import StreamQuery.Plan.Basic
import StreamQuery.Proofs.Operator.Stream

namespace StreamQuery

/-! ### Compiling with and without a schema -/

namespace Code

mutual
theorem compile_none_of_some {input : Schema} :
    ∀ {e : Expr} {code : Code}, compile (some input) e = .ok code → compile none e = .ok code
  | .literal v, code, h => by simpa [compile] using h
  | .inputRef index, code, h => by
      simp only [compile] at h ⊢
      split at h
      · exact h
      · simp at h
  | .call op operands, code, h => by
      simp only [compile, bind, Except.bind] at h ⊢
      split at h
      · simp at h
      · rename_i codes hcodes
        rw [compileAll_none_of_some hcodes]
        exact h
  | .parameter _, _, h => by simp [compile] at h
  | .outer _, _, h => by simp [compile] at h
  | .field _ _, _, h => by simp [compile] at h
theorem compileAll_none_of_some {input : Schema} :
    ∀ {es : List Expr} {codes : List Code},
      compileAll (some input) es = .ok codes → compileAll none es = .ok codes
  | [], codes, h => by simpa [compileAll] using h
  | e :: es, codes, h => by
      simp only [compileAll, bind, Except.bind] at h ⊢
      split at h
      · simp at h
      · rename_i code hcode
        split at h
        · simp at h
        · rename_i rest hrest
          rw [compile_none_of_some hcode, compileAll_none_of_some hrest]
          exact h
end

end Code

/-- What compiles over a schema compiles to the same without one. -/
theorem Scalar.compile_none_of_some {input : Schema} {e : Expr} {s : Scalar}
    (h : Scalar.compile (some input) e = .ok s) : Scalar.compile none e = .ok s := by
  unfold Scalar.compile at h ⊢
  cases hcode : Code.compile (some input) e with
  | error d => rw [hcode] at h; cases h
  | ok code =>
      rw [hcode] at h
      rw [Code.compile_none_of_some hcode]
      exact h

namespace Plan

/-! ### The rows of a node -/

/-- The rows that a node yields on the tables of a catalog. -/
inductive Yields (p : Plan) (c : Catalog) : NodeId → List Row → Prop where
  | scan {n : NodeId} {table : String} {t : Table} {rows : List Row}
      (hnode : p.node? n = some (.scan table)) (hin : p.inputs n = [])
      (htable : c.named? table = some t) (hstored : t.rows = rows.map .row) :
      Yields p c n rows
  | values {n : NodeId} {schema : Schema} {stored : List Item} {rows : List Row}
      (hnode : p.node? n = some (.values schema stored)) (hin : p.inputs n = [])
      (hstored : stored = rows.map .row) :
      Yields p c n rows
  | filter {n input : NodeId} {condition : Expr} {s : Scalar} {rows kept : List Row}
      (hnode : p.node? n = some (.filter condition)) (hin : p.inputs n = [input])
      (hs : Scalar.compile none condition = .ok s)
      (hrows : Yields p c input rows) (hkept : s.select rows = .ok kept) :
      Yields p c n kept
  | project {n input : NodeId} {exprs : List Expr} {names : List String} {ss : List Scalar}
      {rows computed : List Row}
      (hnode : p.node? n = some (.project exprs names)) (hin : p.inputs n = [input])
      (hss : exprs.mapM (Scalar.compile none) = .ok ss)
      (hrows : Yields p c input rows) (hcomputed : Scalar.compute ss rows = .ok computed) :
      Yields p c n computed
  | join {n left right : NodeId} {condition : Expr} {s : Scalar} {lefts rights kept : List Row}
      (hnode : p.node? n = some (.join condition)) (hin : p.inputs n = [left, right])
      (hs : Scalar.compile none condition = .ok s)
      (hleft : Yields p c left lefts) (hright : Yields p c right rights)
      (hkept : s.select (Row.pairs lefts rights) = .ok kept) :
      Yields p c n kept
  | union {n first second : NodeId} {firsts seconds : List Row}
      (hnode : p.node? n = some .union) (hin : p.inputs n = [first, second])
      (hfirst : Yields p c first firsts) (hsecond : Yields p c second seconds) :
      Yields p c n (firsts ++ seconds)

/-- At a node or below it an expression has no value on one of the rows that it meets, or there is
a closing mark among stored rows. -/
inductive Breaks (p : Plan) (c : Catalog) : NodeId → RunDefect → Prop where
  | scan {n : NodeId} {table : String} {t : Table}
      (hnode : p.node? n = some (.scan table)) (htable : c.named? table = some t)
      (hmark : .endOfStream ∈ t.rows) :
      Breaks p c n (.sending .closingMark)
  | values {n : NodeId} {schema : Schema} {stored : List Item}
      (hnode : p.node? n = some (.values schema stored)) (hmark : .endOfStream ∈ stored) :
      Breaks p c n (.sending .closingMark)
  | filter {n input : NodeId} {condition : Expr} {s : Scalar} {rows : List Row} {d : RunDefect}
      (hnode : p.node? n = some (.filter condition)) (hin : p.inputs n = [input])
      (hs : Scalar.compile none condition = .ok s)
      (hrows : Yields p c input rows) (hd : s.select rows = .error d) :
      Breaks p c n d
  | project {n input : NodeId} {exprs : List Expr} {names : List String} {ss : List Scalar}
      {rows : List Row} {d : RunDefect}
      (hnode : p.node? n = some (.project exprs names)) (hin : p.inputs n = [input])
      (hss : exprs.mapM (Scalar.compile none) = .ok ss)
      (hrows : Yields p c input rows) (hd : Scalar.compute ss rows = .error d) :
      Breaks p c n d
  | join {n left right : NodeId} {condition : Expr} {s : Scalar} {lefts rights : List Row}
      {d : RunDefect}
      (hnode : p.node? n = some (.join condition)) (hin : p.inputs n = [left, right])
      (hs : Scalar.compile none condition = .ok s)
      (hleft : Yields p c left lefts) (hright : Yields p c right rights)
      (hd : s.select (Row.pairs lefts rights) = .error d) :
      Breaks p c n d
  | input {n m : NodeId} {d : RunDefect} (hin : m ∈ p.inputs n) (hd : Breaks p c m d) :
      Breaks p c n d

/-- The rows of a plan are those of its root. -/
def Answers (p : Plan) (c : Catalog) (rows : List Row) : Prop :=
  ∃ root, p.root = some root ∧ p.Yields c root rows

/-- An expression of the plan has no value on one of the rows that it meets. -/
def LacksValue (p : Plan) (c : Catalog) : Prop :=
  ∃ root d, p.root = some root ∧ p.Breaks c root (.evaluation d)

/-- The plan breaks at its root or below it. -/
def Crashes (p : Plan) (c : Catalog) : Prop :=
  ∃ root d, p.root = some root ∧ p.Breaks c root d

variable {p : Plan} {c : Catalog}

/-- A node yields at most one list of rows. -/
theorem Yields.unique {n : NodeId} {rows rows' : List Row} (h : p.Yields c n rows)
    (h' : p.Yields c n rows') : rows = rows' := by
  induction h generalizing rows' with
  | scan hnode hin htable hstored =>
      cases h' with
      | scan hnode' hin' htable' hstored' =>
          obtain rfl : _ = _ := by simpa [hnode] using hnode'
          obtain rfl : _ = _ := by simpa [htable] using htable'
          exact Item.map_row_inj.mp (hstored.symm.trans hstored')
      | _ => simp_all
  | values hnode hin hstored =>
      cases h' with
      | values hnode' hin' hstored' =>
          obtain ⟨-, rfl⟩ : _ ∧ _ := by simpa [hnode] using hnode'
          exact Item.map_row_inj.mp (hstored.symm.trans hstored')
      | _ => simp_all
  | filter hnode hin hs hrows hkept ih =>
      cases h' with
      | filter hnode' hin' hs' hrows' hkept' =>
          obtain rfl : _ = _ := by simpa [hnode] using hnode'
          obtain rfl : _ = _ := by simpa [hin] using hin'
          obtain rfl : _ = _ := by simpa [hs] using hs'
          obtain rfl := ih hrows'
          simpa [hkept] using hkept'
      | _ => simp_all
  | project hnode hin hss hrows hcomputed ih =>
      cases h' with
      | project hnode' hin' hss' hrows' hcomputed' =>
          obtain ⟨rfl, rfl⟩ : _ ∧ _ := by simpa [hnode] using hnode'
          obtain rfl : _ = _ := by simpa [hin] using hin'
          obtain rfl : _ = _ := by simpa [hss] using hss'
          obtain rfl := ih hrows'
          simpa [hcomputed] using hcomputed'
      | _ => simp_all
  | join hnode hin hs hleft hright hkept ihl ihr =>
      cases h' with
      | join hnode' hin' hs' hleft' hright' hkept' =>
          obtain rfl : _ = _ := by simpa [hnode] using hnode'
          obtain ⟨rfl, rfl⟩ : _ ∧ _ := by simpa [hin] using hin'
          obtain rfl : _ = _ := by simpa [hs] using hs'
          obtain rfl := ihl hleft'
          obtain rfl := ihr hright'
          simpa [hkept] using hkept'
      | _ => simp_all
  | union hnode hin hfirst hsecond ihf ihs =>
      cases h' with
      | union hnode' hin' hfirst' hsecond' =>
          obtain ⟨rfl, rfl⟩ : _ ∧ _ := by simpa [hin] using hin'
          rw [ihf hfirst', ihs hsecond']
      | _ => simp_all

/-- The inputs of a node that yields rows yield rows. -/
theorem Yields.of_input {n m : NodeId} {rows : List Row} (h : p.Yields c n rows)
    (hm : m ∈ p.inputs n) : ∃ fed, p.Yields c m fed := by
  cases h with
  | scan _ hin => rw [hin] at hm; cases hm
  | values _ hin => rw [hin] at hm; cases hm
  | filter _ hin _ hrows =>
      rw [hin, List.mem_singleton] at hm
      exact ⟨_, hm ▸ hrows⟩
  | project _ hin _ hrows =>
      rw [hin, List.mem_singleton] at hm
      exact ⟨_, hm ▸ hrows⟩
  | join _ hin _ hleft hright =>
      rw [hin, List.mem_cons, List.mem_singleton] at hm
      rcases hm with rfl | rfl
      · exact ⟨_, hleft⟩
      · exact ⟨_, hright⟩
  | union _ hin hfirst hsecond =>
      rw [hin, List.mem_cons, List.mem_singleton] at hm
      rcases hm with rfl | rfl
      · exact ⟨_, hfirst⟩
      · exact ⟨_, hsecond⟩

/-- A node that yields rows does not break. -/
theorem Breaks.not_yields {n : NodeId} {d : RunDefect} (h : p.Breaks c n d) :
    ∀ {rows : List Row}, ¬ p.Yields c n rows := by
  induction h with
  | scan hnode htable hmark =>
      intro rows hy
      cases hy with
      | scan hnode' hin' htable' hstored =>
          obtain rfl : _ = _ := by simpa [hnode] using hnode'
          obtain rfl : _ = _ := by simpa [htable] using htable'
          exact Item.not_mem_map_row _ (hstored ▸ hmark)
      | _ => simp_all
  | values hnode hmark =>
      intro rows hy
      cases hy with
      | values hnode' hin' hstored =>
          obtain ⟨-, rfl⟩ : _ ∧ _ := by simpa [hnode] using hnode'
          exact Item.not_mem_map_row _ (hstored ▸ hmark)
      | _ => simp_all
  | filter hnode hin hs hrows hd =>
      intro rows hy
      cases hy with
      | filter hnode' hin' hs' hrows' hkept =>
          obtain rfl : _ = _ := by simpa [hnode] using hnode'
          obtain rfl : _ = _ := by simpa [hin] using hin'
          obtain rfl : _ = _ := by simpa [hs] using hs'
          obtain rfl := hrows.unique hrows'
          simp [hd] at hkept
      | _ => simp_all
  | project hnode hin hss hrows hd =>
      intro rows hy
      cases hy with
      | project hnode' hin' hss' hrows' hcomputed =>
          obtain ⟨rfl, rfl⟩ : _ ∧ _ := by simpa [hnode] using hnode'
          obtain rfl : _ = _ := by simpa [hin] using hin'
          obtain rfl : _ = _ := by simpa [hss] using hss'
          obtain rfl := hrows.unique hrows'
          simp [hd] at hcomputed
      | _ => simp_all
  | join hnode hin hs hleft hright hd =>
      intro rows hy
      cases hy with
      | join hnode' hin' hs' hleft' hright' hkept =>
          obtain rfl : _ = _ := by simpa [hnode] using hnode'
          obtain ⟨rfl, rfl⟩ : _ ∧ _ := by simpa [hin] using hin'
          obtain rfl : _ = _ := by simpa [hs] using hs'
          obtain rfl := hleft.unique hleft'
          obtain rfl := hright.unique hright'
          simp [hd] at hkept
      | _ => simp_all
  | input hin _ ih =>
      intro rows hy
      obtain ⟨fed, hfed⟩ := hy.of_input hin
      exact ih hfed

theorem Answers.not_crashes {rows : List Row} (h : p.Answers c rows) : ¬ p.Crashes c := by
  obtain ⟨root, hroot, hy⟩ := h
  rintro ⟨root', d, hroot', hd⟩
  rw [hroot] at hroot'
  cases hroot'
  exact hd.not_yields hy

theorem Answers.unique {rows rows' : List Row} (h : p.Answers c rows) (h' : p.Answers c rows') :
    rows = rows' := by
  obtain ⟨root, hroot, hy⟩ := h
  obtain ⟨root', hroot', hy'⟩ := h'
  rw [hroot] at hroot'
  cases hroot'
  exact hy.unique hy'

end Plan

end StreamQuery
