/-
Rows are as wide as the schemas say.

Schemas are derived when a plan is assembled, rows are made when it runs, and nothing
but their widths has to agree.  If the tables of the catalog are regular then they do:
a selection, a pair and a computed row are as wide as the schemas that were derived for
them.  An expression was compiled over a schema of the width of the rows that it meets,
so it meets no row that is too short, and no worker ever crashes for that.
-/
import StreamQuery.Proofs.Csv.Load
import StreamQuery.Proofs.Query.Carry

namespace StreamQuery

/-- The rows of every table are as wide as its schema. -/
def Catalog.Regular (c : Catalog) : Prop :=
  ∀ t ∈ c.tables, ∀ i ∈ t.rows, i.width = t.schema.length

/-- A table that was loaded is regular. -/
theorem Catalog.Regular.add_loaded {c : Catalog} (h : c.Regular) {name : String} {schema : Schema}
    {bytes : List UInt8} {rows : List Row} (hload : Csv.load schema bytes = .ok rows) :
    (c.add (.named name schema (rows.map .row))).Regular := by
  intro t ht
  rcases List.mem_cons.mp ht with rfl | ht
  · rw [Table.named, List.forall_mem_map]
    exact Csv.length_load hload
  · exact h t (List.mem_of_mem_filter ht)

/-- Whatever stops an operator, no row was too short for it. -/
def RunDefect.NotShort (d : RunDefect) : Prop :=
  ∀ index size, d ≠ .evaluation (.shortRow index size)

/-! ### One operation -/

/-- On rows of the width that it was compiled for an expression meets none that is too short. -/
theorem Scalar.failsOnly_of_compile {schema : Schema} {e : Expr} {s : Scalar} {rows : Row → Prop}
    (h : Scalar.compile (some schema) e = .ok s) (hrows : ∀ r, rows r → r.length = schema.length) :
    s.FailsOnly rows RunDefect.NotShort := by
  rintro r d hr heval index size hshort
  cases hshort
  exact Scalar.covered_compile h r (hrows r hr) index size heval

/-- A pair of rows is as wide as the two schemas one behind the other. -/
theorem Row.Paired.length {left right : Schema} {lefts rights : Row → Prop} {row : Row}
    (h : Row.Paired lefts rights row) (hleft : ∀ l, lefts l → l.length = left.length)
    (hright : ∀ r, rights r → r.length = right.length) :
    row.length = (left.merge right).length := by
  obtain ⟨l, r, hl, hr, rfl⟩ := h
  rw [List.length_append, hleft l hl, hright r hr, Schema.merge, List.length_append]

/-- **The operators of a plan on regular tables carry the widths of their inputs to those of their
rows.** -/
theorem Plan.carries_of_regular (p : Plan) {c : Catalog} (hc : c.Regular) :
    p.Carries c (fun schema row => row.length = schema.length) RunDefect.NotShort := by
  intro n op ins o schema _ _ _ h
  have hmark : ∀ {items : List Item}, .endOfStream ∈ items →
      RunDefect.NotShort (.sending .closingMark) := fun _ _ _ => nofun
  have hfirst : ∀ {first : Schema} {rest : List Schema} (r : Row),
      Schema.RowsAt (fun schema row => row.length = schema.length) (first :: rest) 0 r →
        r.length = first.length := fun r hr => hr.has rfl
  have hsecond : ∀ {first second : Schema} {rest : List Schema} (r : Row),
      Schema.RowsAt (fun schema row => row.length = schema.length) (first :: second :: rest) 1 r →
        r.length = second.length := fun r hr => hr.has rfl
  cases h with
  | scan htable =>
      have hrows := hc _ (List.mem_of_find?_eq_some htable)
      exact ⟨fun r hr => hrows _ hr, hmark⟩
  | values hrows => exact ⟨fun r hr => hrows _ hr, hmark⟩
  | filter hs => exact ⟨hfirst, Scalar.failsOnly_of_compile hs hfirst, fun r hr => by cases hr⟩
  | project hss =>
      refine ⟨?_, ?_, fun r hr => by cases hr⟩
      · intro r vs _ hvs
        rw [← (mapM_eq_ok_iff.mp hvs).length_eq, ← hss.length_eq, Assembly.projected,
          List.length_map, List.length_zipIdx]
      · intro s hs
        obtain ⟨i, hi⟩ := List.mem_iff_getElem?.mp hs
        obtain ⟨hlt, rfl⟩ := List.getElem?_eq_some_iff.mp hi
        exact Scalar.failsOnly_of_compile (hss.get (hss.length_eq ▸ hlt) hlt) hfirst
  | join hs =>
      refine ⟨?_, Scalar.failsOnly_of_compile hs ?_, fun r hr => by cases hr⟩
      all_goals exact fun row hpair => hpair.length hfirst hsecond
  | union hwidth =>
      refine ⟨hfirst, ?_, fun r hr => by cases hr⟩
      intro r hr
      exact (hsecond r hr).trans hwidth.symm

namespace Executor

/-- An answer says nothing that does not fit the schema, and is no row that was too short. -/
def Answer.Fits (schema : Schema) (ans : Answer) : Prop :=
  ans.Holds (fun row => row.length = schema.length) RunDefect.NotShort schema

/-- **Rows are as wide as the schemas say.**

An executor at rest is given a query on regular tables.  In every state the query goes through,
a row that an operator sends, or that stands in its channel, has as many fields as the schema of
its node, and no worker has crashed over a row that was too short.  What a call answers fits the
schema of the answer. -/
theorem rows_fit_schemas {e₀ : Executor} {p : Plan} {cat : Catalog} {a : Assembly}
    (hrest : e₀.AtRest) (ha : p.assemble cat = .ok a) (hcat : cat.Regular) :
    (∀ e, Session e₀ a e → ∃ n, e.queries[e₀.queries.length]? = some ⟨n, a.output⟩ ∧
      (∀ (k : Nat) (t : Task), a.tasks[k]? = some t → ∃ schema, p.HasSchema cat t.node schema ∧
        (∀ w s waiting row after, n.workers[k]? = some w → w.life = .working s waiting →
          s.want = .send row after → row.length = schema.length) ∧
        ∀ c row, n.channels[k]? = some c → c.slot = some (.row row) →
          row.length = schema.length) ∧
      ∀ (k : Nat) (w : Worker) (index : UInt64) (size : Nat), n.workers[k]? = some w →
        w.life.ended? ≠ some (.crashed (.evaluation (.shortRow index size)))) ∧
    ∀ e r e₁ events e' ans, Session e₀ a e → e.act (.call r) = some e₁ →
      e₁.after events = some e' → e'.activity = .idle ans → ans.Fits a.schema := by
  obtain ⟨hsent, hanswers⟩ := carries_to_answers hrest ha (p.carries_of_regular hcat)
  refine ⟨?_, hanswers⟩
  intro e hsession
  obtain ⟨n, hn, htasks, hended⟩ := hsent e hsession
  exact ⟨n, hn, htasks, fun k w index size hw hlife => hended k w _ hw hlife index size rfl⟩

/-- A table of one number, as it was loaded. -/
def loadedNumber : Catalog :=
  (Catalog.empty "").add (.named "t" [⟨"n", .int⟩] [.row [.int 7]])

/-- The first field of its rows, in front of itself. -/
def numberTwice : Plan :=
  (((Plan.empty.addNode (.scan "t")).addNode
    (.project [.inputRef 0, .inputRef 0] [])).tryEdge 1 0).1

def numberTwiceAssembly : Assembly :=
  ⟨[⟨0, .values [.row [.int 7]], [], 0⟩,
    ⟨1, .project [⟨.inputRef 0, .fetch 0⟩, ⟨.inputRef 0, .fetch 0⟩], [0], 1⟩], 1,
    [⟨anonymousName 0, .int⟩, ⟨anonymousName 1, .int⟩]⟩

theorem rows_fit_schemas_of_table :
    ∃ (rows : List Row) (a : Assembly),
      Csv.load [⟨"n", .int⟩] [0x37, 0x0a] = .ok rows ∧
      loadedNumber = (Catalog.empty "").add (.named "t" [⟨"n", .int⟩] (rows.map .row)) ∧
      numberTwice.assemble loadedNumber = .ok a ∧
      ∀ e r e₁ events e' ans, Session new a e → e.act (.call r) = some e₁ →
        e₁.after events = some e' → e'.activity = .idle ans → ans.Fits a.schema := by
  have hload : Csv.load [⟨"n", .int⟩] [0x37, 0x0a] = .ok [[.int 7]] := rfl
  have hempty : (Catalog.empty "").Regular := nofun
  have hcat : loadedNumber.Regular := hempty.add_loaded hload
  have ha : numberTwice.assemble loadedNumber = .ok numberTwiceAssembly := by
    with_unfolding_all rfl
  exact ⟨_, _, hload, rfl, ha, (rows_fit_schemas new_atRest ha hcat).2⟩

end Executor

end StreamQuery
