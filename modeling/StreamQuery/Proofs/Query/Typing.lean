/-
Rows are of the types that the schemas say.

Types are derived when a plan is assembled and values are computed when it runs; the two
are separate.  `Plan.WellTyped` says what has to be true beforehand: the stored rows and
the rows written into the plan are of their declared types, and the two inputs of a
union have the same types.  That is all: a selection, a pair and a computed row are of
the types that were derived for them, so the operators of the plan carry types.
-/
import StreamQuery.Proofs.Expr.Evaluation
import StreamQuery.Proofs.Expr.Typing
import StreamQuery.Proofs.Query.Carry

namespace StreamQuery

/-- The rows that a plan reads are of their declared types, and so are those of its unions. -/
structure Plan.WellTyped (p : Plan) (c : Catalog) : Prop where
  tables : ∀ t ∈ c.tables, ∀ row, .row row ∈ t.rows → row.Conforms t.schema
  values : ∀ n schema rows, p.node? n = some (.values schema rows) →
    ∀ row, .row row ∈ rows → row.Conforms schema
  unions : ∀ n first second firsts seconds, p.node? n = some .union →
    p.inputs n = [first, second] → p.HasSchema c first firsts → p.HasSchema c second seconds →
      firsts.map Attribute.type = seconds.map Attribute.type

/-! ### One operation -/

namespace Assembly

variable {c : Catalog} {o : Operator} {schema : Schema}

/-- What an expression computes is of the type derived for its column. -/
theorem conforms_of_compile {input : Schema} {e : Expr} {s : Scalar} {row : Row} {v : Value}
    (h : Scalar.compile (some input) e = .ok s) (hrow : row.Conforms input)
    (hv : s.eval row = .ok v) : v.Conforms ((e.dataType input).getD .null) := by
  obtain ⟨t, ht⟩ := Expr.dataType_of_compile h
  rw [ht]
  exact ((Scalar.eval_eq_ok_iff h).mp hv).conforms hrow ht

/-- **A computed row is of the types derived for its columns.** -/
theorem conforms_projected {input : Schema} {names : List String} {row : Row} :
    ∀ {exprs : List Expr} {ss : List Scalar} {vs : List Value} (i : Nat),
      List.Forall₂ (fun e s => Scalar.compile (some input) e = .ok s) exprs ss →
      List.Forall₂ (fun (s : Scalar) v => s.eval row = .ok v) ss vs → row.Conforms input →
      Row.Conforms vs ((exprs.zipIdx i).map fun (e, j) =>
        ⟨PlanNode.fieldName names j, (e.dataType input).getD .null⟩) := by
  intro exprs ss vs i hcompiled heval hrow
  induction hcompiled generalizing vs i with
  | nil =>
      cases heval
      trivial
  | cons hs _ ih =>
      cases heval with
      | cons hv hvs => exact ⟨conforms_of_compile hs hrow hv, ih (i + 1) hvs⟩

/-- **Every computed column has a derived type**: none is filled in for one that is missing. -/
theorem dataType_of_operator {exprs : List Expr} {names : List String} {input : Schema}
    (h : operator c (.project exprs names) [input] = .ok (o, schema)) :
    ∀ e ∈ exprs, ∃ t, e.dataType input = some t := by
  cases operator_eq_ok_iff.mp h with
  | project hss =>
      intro e he
      obtain ⟨s, hs⟩ := (mapM_ok_iff exprs).mp ⟨_, mapM_eq_ok_iff.mpr hss⟩ e he
      exact Expr.dataType_of_compile hs

end Assembly

/-- **The operators of a well-typed plan carry the types of their inputs to those of their rows.** -/
theorem Plan.WellTyped.carries {p : Plan} {c : Catalog} (hp : p.WellTyped c) :
    p.Carries c (fun schema row => row.Conforms schema) fun _ => True := by
  intro n op ins o schema hnode hcount hins h
  have hfails : ∀ (s : Scalar) (rows : Row → Prop), s.FailsOnly rows fun _ => True :=
    fun _ _ _ _ _ _ => trivial
  have hnone : ∀ {rows : Row → Prop}, ∀ r ∈ (none : Option Row), rows r := nofun
  cases h with
  | scan htable => exact ⟨hp.tables _ (List.mem_of_find?_eq_some htable), fun _ => trivial⟩
  | values hrows => exact ⟨hp.values n _ _ hnode, fun _ => trivial⟩
  | filter hs => exact ⟨fun r hr => hr.has rfl, hfails _ _, hnone⟩
  | project hss =>
      refine ⟨?_, fun e _ => hfails e _, hnone⟩
      intro r vs hr hvs
      exact Assembly.conforms_projected 0 hss (mapM_eq_ok_iff.mp hvs) (hr.has rfl)
  | join hs =>
      refine ⟨?_, hfails _ _, fun r hr => by cases hr⟩
      rintro row ⟨l, r, hl, hr, rfl⟩
      exact (hl.has rfl).append (hr.has rfl)
  | union hwidth =>
      obtain ⟨first, second, hin⟩ := List.length_eq_two.mp hcount
      rw [hin] at hins
      obtain ⟨hfirst, hins⟩ := List.forall₂_cons.mp hins
      obtain ⟨hsecond, -⟩ := List.forall₂_cons.mp hins
      refine ⟨fun r hr => hr.has rfl, ?_, hnone⟩
      intro r hr
      exact (hr.has rfl).of_types (hp.unions n first second _ _ hnode hin hfirst hsecond).symm

namespace Executor

/-- The rows of an answer are of the types of the schema. -/
def Answer.Conforms (schema : Schema) (ans : Answer) : Prop :=
  ans.Holds (fun row => row.Conforms schema) (fun _ => True) schema

/-- **Rows are of the types that the schemas say.**

An executor at rest is given a query.  If the query is well typed, then in every state it goes
through a row that an operator sends, or that stands in its channel, is of the types of the schema
of its node, and what a call answers is of the types of the schema of the answer.  Well typed or
not, every expression that an operator computes has a derived type, so that no column is given the
type of null for want of one. -/
theorem rows_conform_to_schemas {e₀ : Executor} {p : Plan} {cat : Catalog} {a : Assembly}
    (hrest : e₀.AtRest) (ha : p.assemble cat = .ok a) :
    (p.WellTyped cat →
      (∀ e, Session e₀ a e → ∃ n, e.queries[e₀.queries.length]? = some ⟨n, a.output⟩ ∧
        ∀ (k : Nat) (t : Task), a.tasks[k]? = some t → ∃ schema, p.HasSchema cat t.node schema ∧
          (∀ w s waiting row after, n.workers[k]? = some w → w.life = .working s waiting →
            s.want = .send row after → row.Conforms schema) ∧
          ∀ c row, n.channels[k]? = some c → c.slot = some (.row row) → row.Conforms schema) ∧
      ∀ e r e₁ events e' ans, Session e₀ a e → e.act (.call r) = some e₁ →
        e₁.after events = some e' → e'.activity = .idle ans → ans.Conforms a.schema) ∧
    ∀ t ∈ a.tasks, ∀ exprs names input schema,
      p.node? t.node = some (.project exprs names) → p.inputs t.node = [input] →
        p.HasSchema cat input schema → ∀ e ∈ exprs, ∃ type, e.dataType schema = some type := by
  refine ⟨?_, ?_⟩
  · intro hp
    obtain ⟨hsent, hanswers⟩ := carries_to_answers hrest ha hp.carries
    refine ⟨?_, hanswers⟩
    intro e hsession
    obtain ⟨n, hn, htasks, -⟩ := hsent e hsession
    exact ⟨n, hn, htasks⟩
  · obtain ⟨root, schemas, t, -, hl, -⟩ := Assembly.layout_of_assemble ha
    intro t ht exprs names input schema hnode hin hinput
    obtain ⟨k, hk⟩ := List.mem_iff_getElem?.mp ht
    obtain ⟨op, ins, out, hnode', -, hins, -, hop⟩ := (hl.laid k t hk).operation
    have hschemas := hl.hasSchemas hk hins
    rw [hin] at hschemas
    obtain ⟨schema', rest, hinput', hnil, rfl⟩ := List.forall₂_cons_left_iff.mp hschemas
    obtain rfl := List.forall₂_nil_left_iff.mp hnil
    obtain rfl := hinput.unique hinput'
    obtain rfl : op = .project exprs names := by simpa [hnode'] using hnode
    exact Assembly.dataType_of_operator hop

/-- A union of a number and of no value, each beside the answer to whether it is null. -/
def numberOrNull : Plan :=
  ((((((((Plan.empty.addNode (.values [⟨"n", .int⟩] [.row [.int 7]])).addNode
    (.values [⟨"m", .int⟩] [.row [.null]])).addNode .union).addNode
    (.project [.inputRef 0, .call .isNull [.inputRef 0]] ["n"])).tryEdge 2 0).1.tryEdge
      2 1).1).tryEdge 3 2).1

def numberOrNullAssembly : Assembly :=
  ⟨[⟨0, .values [.row [.int 7]], [], 0⟩, ⟨1, .values [.row [.null]], [], 1⟩,
    ⟨2, .union, [0, 1], 2⟩,
    ⟨3, .project [⟨.inputRef 0, .fetch 0⟩,
      ⟨.call .isNull [.inputRef 0], .nullTest true (.fetch 0)⟩], [2], 3⟩], 3,
    [⟨"n", .int⟩, ⟨anonymousName 1, .bool⟩]⟩

theorem numberOrNull_wellTyped : numberOrNull.WellTyped (.empty "") := by
  refine ⟨nofun, ?_, ?_⟩
  · intro n schema rows hnode row hrow
    match n with
    | 0 =>
        cases hnode
        obtain rfl := Item.row.inj (List.mem_singleton.mp hrow)
        exact ⟨trivial, trivial⟩
    | 1 =>
        cases hnode
        obtain rfl := Item.row.inj (List.mem_singleton.mp hrow)
        exact ⟨trivial, trivial⟩
    | 2 => cases hnode
    | 3 => cases hnode
    | n + 4 => cases hnode
  · intro n first second firsts seconds hnode hin hfirst hsecond
    match n with
    | 0 => cases hnode
    | 1 => cases hnode
    | 2 =>
        cases hin
        obtain rfl := hfirst.unique (.values rfl)
        obtain rfl := hsecond.unique (.values rfl)
        rfl
    | 3 => cases hnode
    | n + 4 => cases hnode

theorem rows_conform_to_schemas_of_union :
    ∃ a, numberOrNull.node? 2 = some .union ∧ numberOrNull.assemble (.empty "") = .ok a ∧
      a.schema = [⟨"n", .int⟩, ⟨anonymousName 1, .bool⟩] ∧
      ∀ e r e₁ events e' ans, Session new a e → e.act (.call r) = some e₁ →
        e₁.after events = some e' → e'.activity = .idle ans → ans.Conforms a.schema := by
  have ha : numberOrNull.assemble (.empty "") = .ok numberOrNullAssembly := by
    with_unfolding_all rfl
  exact ⟨numberOrNullAssembly, rfl, ha, rfl,
    ((rows_conform_to_schemas new_atRest ha).1 numberOrNull_wellTyped).2⟩

end Executor

end StreamQuery
