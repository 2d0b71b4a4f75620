/-
Which schema a node has, and what an operation needs of its inputs.

`Plan.HasSchema` gives the schema of the rows of a node by recursion from the node to
the nodes that feed it, and asks for nothing else.  `PlanNode.Suits` says what an
operation needs: a table that is there, rows as wide as their schema, inputs of equal
width, expressions that can be compiled.  Both are read off the operation alone; the
lemmas here say that an operator is built exactly when its operation suits the schemas
of its inputs, and that the schema it comes with is that of its node.
-/
import StreamQuery.Proofs.Expr.Width
import StreamQuery.Query.Assembly

namespace StreamQuery

/-- The schema of the rows of a node on the tables of a catalog. -/
inductive Plan.HasSchema (p : Plan) (c : Catalog) : NodeId → Schema → Prop where
  | scan {n : NodeId} {table : String} {t : Table} (hnode : p.node? n = some (.scan table))
      (htable : c.named? table = some t) : HasSchema p c n t.schema
  | values {n : NodeId} {schema : Schema} {rows : List Item}
      (hnode : p.node? n = some (.values schema rows)) : HasSchema p c n schema
  | filter {n input : NodeId} {condition : Expr} {schema : Schema}
      (hnode : p.node? n = some (.filter condition)) (hin : p.inputs n = [input])
      (hinput : HasSchema p c input schema) : HasSchema p c n schema
  | project {n input : NodeId} {exprs : List Expr} {names : List String} {schema : Schema}
      (hnode : p.node? n = some (.project exprs names)) (hin : p.inputs n = [input])
      (hinput : HasSchema p c input schema) :
      HasSchema p c n (Assembly.projected schema names exprs)
  | join {n left right : NodeId} {condition : Expr} {lefts rights : Schema}
      (hnode : p.node? n = some (.join condition)) (hin : p.inputs n = [left, right])
      (hleft : HasSchema p c left lefts) (hright : HasSchema p c right rights) :
      HasSchema p c n (lefts.merge rights)
  /-- The schema of the second input is dropped. -/
  | union {n first second : NodeId} {schema : Schema} (hnode : p.node? n = some .union)
      (hin : p.inputs n = [first, second]) (hfirst : HasSchema p c first schema) :
      HasSchema p c n schema

/-- What an operation needs of the catalog and of the schemas of its inputs. -/
def PlanNode.Suits (c : Catalog) : PlanNode → List Schema → Prop
  | .scan table, _ => ∃ t, c.named? table = some t
  | .values schema rows, _ => ∀ i ∈ rows, i.width = schema.length
  | .filter condition, [input] => ∃ s, Scalar.compile (some input) condition = .ok s
  | .project exprs _, [input] => ∀ e ∈ exprs, ∃ s, Scalar.compile (some input) e = .ok s
  | .join condition, [left, right] =>
    ∃ s, Scalar.compile (some (left.merge right)) condition = .ok s
  | .union, [left, right] => left.length = right.length
  | _, _ => False

variable {p : Plan} {c : Catalog} {n : NodeId}

/-- A node has at most one schema. -/
theorem Plan.HasSchema.unique {s s' : Schema} (h : p.HasSchema c n s) (h' : p.HasSchema c n s') :
    s = s' := by
  induction h generalizing s' with
  | scan hnode htable => cases h' <;> simp_all
  | values hnode => cases h' <;> simp_all
  | filter hnode hin hinput ih =>
      cases h' with
      | filter hnode' hin' hinput' =>
          obtain rfl : _ = _ := by simpa [hin] using hin'
          exact ih hinput'
      | _ => simp_all
  | project hnode hin hinput ih =>
      cases h' with
      | project hnode' hin' hinput' =>
          obtain ⟨rfl, rfl⟩ : _ ∧ _ := by simpa [hnode] using hnode'
          obtain rfl : _ = _ := by simpa [hin] using hin'
          rw [ih hinput']
      | _ => simp_all
  | join hnode hin hleft hright ihl ihr =>
      cases h' with
      | join hnode' hin' hleft' hright' =>
          obtain ⟨rfl, rfl⟩ : _ ∧ _ := by simpa [hin] using hin'
          rw [ihl hleft', ihr hright']
      | _ => simp_all
  | union hnode hin hfirst ih =>
      cases h' with
      | union hnode' hin' hfirst' =>
          obtain ⟨rfl, -⟩ : _ ∧ _ := by simpa [hin] using hin'
          exact ih hfirst'
      | _ => simp_all

namespace Assembly

variable {op : PlanNode} {ins : List Schema} {o : Operator} {schema : Schema}

theorem compile_eq_ok_iff {input : Schema} {e : Expr} {s : Scalar} :
    compile input e = .ok s ↔ Scalar.compile (some input) e = .ok s := by
  unfold compile
  cases Scalar.compile (some input) e <;> simp [Except.mapError]

/-- Which operator is built for an operation over inputs of some schemas, and the schema of its
rows. -/
inductive Builds (c : Catalog) : PlanNode → List Schema → Operator → Schema → Prop
  | scan {table : String} {ins : List Schema} {t : Table} (htable : c.named? table = some t) :
      Builds c (.scan table) ins (.values t.rows) t.schema
  | values {schema : Schema} {rows : List Item} {ins : List Schema}
      (hrows : ∀ i ∈ rows, i.width = schema.length) :
      Builds c (.values schema rows) ins (.values rows) schema
  | filter {condition : Expr} {input : Schema} {rest : List Schema} {s : Scalar}
      (hs : Scalar.compile (some input) condition = .ok s) :
      Builds c (.filter condition) (input :: rest) (.filter s) input
  | project {exprs : List Expr} {names : List String} {input : Schema} {rest : List Schema}
      {ss : List Scalar}
      (hss : List.Forall₂ (fun e s => Scalar.compile (some input) e = .ok s) exprs ss) :
      Builds c (.project exprs names) (input :: rest) (.project ss) (projected input names exprs)
  | join {condition : Expr} {left right : Schema} {rest : List Schema} {s : Scalar}
      (hs : Scalar.compile (some (left.merge right)) condition = .ok s) :
      Builds c (.join condition) (left :: right :: rest) (.join s) (left.merge right)
  | union {left right : Schema} {rest : List Schema} (hwidth : left.length = right.length) :
      Builds c .union (left :: right :: rest) .union left

/-- **All that building an operator comes to.** -/
theorem operator_eq_ok_iff :
    operator c op ins = .ok (o, schema) ↔ Builds c op ins o schema := by
  constructor
  · intro h
    unfold operator at h
    split at h
    · split at h
      · rename_i t ht
        cases h
        exact .scan ht
      · cases h
    · split at h
      · cases h
      · rename_i hnone
        cases h
        exact .values fun i hi => by simpa using List.find?_eq_none.mp hnone i hi
    · simp only [bind, Except.bind] at h
      split at h
      · cases h
      · rename_i s hs
        cases h
        exact .filter (compile_eq_ok_iff.mp hs)
    · simp only [bind, Except.bind] at h
      split at h
      · cases h
      · rename_i ss hss
        cases h
        exact .project ((mapM_eq_ok_iff.mp hss).imp fun e s => compile_eq_ok_iff.mp)
    · simp only [bind, Except.bind] at h
      split at h
      · cases h
      · rename_i s hs
        cases h
        exact .join (compile_eq_ok_iff.mp hs)
    · split at h
      · rename_i hwidth
        cases h
        exact .union hwidth
      · cases h
    · cases h
  · intro h
    cases h with
    | scan htable => rw [operator, htable]
    | values hrows =>
        have hnone : List.find? (fun i : Item => i.width != schema.length) _ = none :=
          List.find?_eq_none.mpr fun i hi => by simpa using hrows i hi
        rw [operator, hnone]
    | filter hs => rw [operator, compile_eq_ok_iff.mpr hs]; rfl
    | project hss =>
        rw [operator, mapM_eq_ok_iff.mpr (hss.imp fun e s => compile_eq_ok_iff.mpr)]
        rfl
    | join hs => rw [operator, compile_eq_ok_iff.mpr hs]; rfl
    | union hwidth => rw [operator, if_pos hwidth]

/-- **An operator is built exactly when its operation suits the schemas of its inputs.** -/
theorem operator_ok_iff (hcount : ins.length = op.inputCount) :
    (∃ o schema, operator c op ins = .ok (o, schema)) ↔ op.Suits c ins := by
  simp only [operator_eq_ok_iff]
  constructor
  · rintro ⟨o, schema, h⟩
    cases h with
    | scan htable => exact ⟨_, htable⟩
    | values hrows => exact hrows
    | filter hs =>
        obtain rfl := List.length_eq_zero_iff.mp (Nat.succ.inj hcount)
        exact ⟨_, hs⟩
    | project hss =>
        obtain rfl := List.length_eq_zero_iff.mp (Nat.succ.inj hcount)
        exact (mapM_ok_iff _).mp ⟨_, mapM_eq_ok_iff.mpr hss⟩
    | join hs =>
        obtain rfl := List.length_eq_zero_iff.mp (Nat.succ.inj (Nat.succ.inj hcount))
        exact ⟨_, hs⟩
    | union hwidth =>
        obtain rfl := List.length_eq_zero_iff.mp (Nat.succ.inj (Nat.succ.inj hcount))
        exact hwidth
  · intro h
    cases op with
    | scan table =>
        obtain ⟨t, ht⟩ := h
        exact ⟨_, _, .scan ht⟩
    | values schema rows => exact ⟨_, _, .values h⟩
    | filter condition =>
        obtain ⟨input, rfl⟩ := List.length_eq_one_iff.mp hcount
        obtain ⟨s, hs⟩ := h
        exact ⟨_, _, .filter hs⟩
    | project exprs names =>
        obtain ⟨input, rfl⟩ := List.length_eq_one_iff.mp hcount
        obtain ⟨ss, hss⟩ := (mapM_ok_iff exprs).mpr h
        exact ⟨_, _, .project (mapM_eq_ok_iff.mp hss)⟩
    | join condition =>
        obtain ⟨left, right, rfl⟩ := List.length_eq_two.mp hcount
        obtain ⟨s, hs⟩ := h
        exact ⟨_, _, .join hs⟩
    | union =>
        obtain ⟨left, right, rfl⟩ := List.length_eq_two.mp hcount
        exact ⟨_, _, .union h⟩

/-- The operator of an operation has as many inputs as the operation. -/
theorem operator_inputCount (h : operator c op ins = .ok (o, schema)) :
    o.inputCount = op.inputCount := by
  cases operator_eq_ok_iff.mp h <;> rfl

/-- The schema that an operator comes with is that of its node. -/
theorem hasSchema_of_operator (hnode : p.node? n = some op)
    (hcount : (p.inputs n).length = op.inputCount)
    (hins : List.Forall₂ (p.HasSchema c) (p.inputs n) ins)
    (h : operator c op ins = .ok (o, schema)) : p.HasSchema c n schema := by
  cases operator_eq_ok_iff.mp h with
  | scan htable => exact .scan hnode htable
  | values hrows => exact .values hnode
  | filter hs =>
      obtain ⟨m, hm⟩ := List.length_eq_one_iff.mp hcount
      rw [hm] at hins
      exact .filter hnode hm (List.forall₂_cons.mp hins).1
  | project hss =>
      obtain ⟨m, hm⟩ := List.length_eq_one_iff.mp hcount
      rw [hm] at hins
      exact .project hnode hm (List.forall₂_cons.mp hins).1
  | join hs =>
      obtain ⟨l, r, hm⟩ := List.length_eq_two.mp hcount
      rw [hm] at hins
      obtain ⟨hleft, hrest⟩ := List.forall₂_cons.mp hins
      exact .join hnode hm hleft (List.forall₂_cons.mp hrest).1
  | union hwidth =>
      obtain ⟨l, r, hm⟩ := List.length_eq_two.mp hcount
      rw [hm] at hins
      exact .union hnode hm (List.forall₂_cons.mp hins).1

theorem compile_error {input : Schema} {e : Expr} {err : BuildError}
    (h : compile input e = .error err) : ∃ d, err = .expression d := by
  unfold compile at h
  cases hs : Scalar.compile (some input) e with
  | ok s =>
      rw [hs] at h
      cases h
  | error d =>
      rw [hs] at h
      cases h
      exact ⟨d, rfl⟩

/-- An operator that cannot be built fails by itself: it blames an expression, or what its operation
needs, and no node. -/
theorem operator_error_cases {err : BuildError} (h : operator c op ins = .error err) :
    (∃ d, err = .expression d) ∨ ∃ reason, err = .fault reason ∧ ∀ n, reason ≠ .shared n := by
  unfold operator at h
  split at h
  · split at h
    · cases h
    · cases h
      exact .inr ⟨_, rfl, by simp⟩
  · split at h
    · cases h
      exact .inr ⟨_, rfl, by simp⟩
    · cases h
  · simp only [bind, Except.bind] at h
    split at h
    · rename_i herr
      cases h
      exact .inl (compile_error herr)
    · cases h
  · simp only [bind, Except.bind] at h
    split at h
    · rename_i herr
      cases h
      obtain ⟨e, -, he⟩ := mapM_eq_error herr
      exact .inl (compile_error he)
    · cases h
  · simp only [bind, Except.bind] at h
    split at h
    · rename_i herr
      cases h
      exact .inl (compile_error herr)
    · cases h
  · split at h
    · cases h
    · cases h
      exact .inr ⟨_, rfl, by simp⟩
  · cases h
    exact .inr ⟨_, rfl, by simp⟩

/-- Building an operator does not connect anything. -/
theorem operator_ne_wiring {d : WiringDefect} : operator c op ins ≠ .error (.wiring d) := by
  intro h
  obtain ⟨d', hd'⟩ | ⟨reason, hreason, -⟩ := operator_error_cases h
  · cases hd'
  · cases hreason

end Assembly

end StreamQuery
