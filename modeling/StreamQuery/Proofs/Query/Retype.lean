/-
The types of columns do not matter to a query.

Expressions are compiled against the number of columns, not against their types, and what is
written of an answer are the names of its columns and its rows.  So two catalogs that differ in
the types of columns give every plan the same operators, and an executor that is given them goes
through the same steps; the schema of the answer is carried along and never looked at.

`Catalog.Retypes` compares two catalogs, and `Executor.relabel` puts another schema into an
executor.
-/
import StreamQuery.CommandLine.Run
import StreamQuery.Proofs.Query.Acceptance

namespace StreamQuery

/-- Two schemas have columns of the same names. -/
def Schema.SameNames (s s' : Schema) : Prop :=
  s.map Attribute.name = s'.map Attribute.name

theorem Schema.SameNames.length {s s' : Schema} (h : s.SameNames s') : s.length = s'.length := by
  simpa using congrArg List.length h

/-- The other catalog has the tables of this one, up to the types of their columns. -/
def Catalog.Retypes (c c' : Catalog) : Prop :=
  ∀ name t, c.named? name = some t →
    ∃ t', c'.named? name = some t' ∧ t'.rows = t.rows ∧ t.schema.SameNames t'.schema

/-! ### Compiling -/

namespace Code

variable {input input' : Schema}

mutual
/-- Of a schema only the number of columns matters. -/
theorem compile_of_length (hlength : input.length = input'.length) :
    ∀ {e : Expr} {code : Code}, compile (some input) e = .ok code →
      compile (some input') e = .ok code
  | .literal v, code, h => by simpa [compile] using h
  | .inputRef index, code, h => by
      simp only [compile, hlength] at h ⊢
      split at h
      · rename_i hindex
        rw [if_pos hindex]
        exact h
      · cases h
  | .call op operands, code, h => by
      simp only [compile, bind, Except.bind] at h ⊢
      split at h
      · cases h
      · rename_i codes hcodes
        rw [compileAll_of_length hlength hcodes]
        exact h
  | .parameter _, _, h => by simp [compile] at h
  | .outer _, _, h => by simp [compile] at h
  | .field _ _, _, h => by simp [compile] at h
theorem compileAll_of_length (hlength : input.length = input'.length) :
    ∀ {es : List Expr} {codes : List Code}, compileAll (some input) es = .ok codes →
      compileAll (some input') es = .ok codes
  | [], codes, h => by simpa [compileAll] using h
  | e :: es, codes, h => by
      simp only [compileAll, bind, Except.bind] at h ⊢
      split at h
      · cases h
      · rename_i code hcode
        split at h
        · cases h
        · rename_i rest hrest
          rw [compile_of_length hlength hcode, compileAll_of_length hlength hrest]
          exact h
end

end Code

namespace Assembly

variable {c c' : Catalog} {p : Plan} {input input' : Schema} {ins ins' : List Schema}

theorem compile_of_length (hlength : input.length = input'.length) {e : Expr} {s : Scalar}
    (h : Scalar.compile (some input) e = .ok s) : Scalar.compile (some input') e = .ok s := by
  unfold Scalar.compile at h ⊢
  cases hcode : Code.compile (some input) e with
  | error d => rw [hcode] at h; cases h
  | ok code =>
      rw [hcode] at h
      rw [Code.compile_of_length hlength hcode]
      exact h

/-- The names of computed columns do not depend on the input. -/
theorem sameNames_projected (input input' : Schema) (names : List String) (exprs : List Expr) :
    (projected input names exprs).SameNames (projected input' names exprs) := by
  unfold projected Schema.SameNames
  rw [List.map_map, List.map_map]
  rfl

theorem sameNames_merge {left left' right right' : Schema} (hl : left.SameNames left')
    (hr : right.SameNames right') : (left.merge right).SameNames (left'.merge right') := by
  unfold Schema.SameNames Schema.merge at *
  rw [List.map_append, List.map_append, hl, hr]

/-- An operation becomes the same operator over inputs of the same names. -/
theorem operator_retyped (hc : c.Retypes c') {op : PlanNode} {o : Operator} {schema : Schema}
    (hins : List.Forall₂ Schema.SameNames ins ins') (h : operator c op ins = .ok (o, schema)) :
    ∃ schema', operator c' op ins' = .ok (o, schema') ∧ schema.SameNames schema' := by
  simp only [operator_eq_ok_iff] at h ⊢
  cases h with
  | scan htable =>
      obtain ⟨t', ht', hrows, hnames⟩ := hc _ _ htable
      exact ⟨_, hrows ▸ .scan ht', hnames⟩
  | values hrows => exact ⟨_, .values hrows, rfl⟩
  | filter hs =>
      obtain ⟨input', rest', hinput, -, rfl⟩ := List.forall₂_cons_left_iff.mp hins
      exact ⟨_, .filter (compile_of_length hinput.length hs), hinput⟩
  | project hss =>
      obtain ⟨input', rest', hinput, -, rfl⟩ := List.forall₂_cons_left_iff.mp hins
      exact ⟨_, .project (hss.imp fun e s => compile_of_length hinput.length),
        sameNames_projected _ input' _ _⟩
  | join hs =>
      obtain ⟨left', rest', hleft, hrest, rfl⟩ := List.forall₂_cons_left_iff.mp hins
      obtain ⟨right', rest', hright, -, rfl⟩ := List.forall₂_cons_left_iff.mp hrest
      have hmerged := sameNames_merge hleft hright
      exact ⟨_, .join (compile_of_length hmerged.length hs), hmerged⟩
  | union hwidth =>
      obtain ⟨left', rest', hleft, hrest, rfl⟩ := List.forall₂_cons_left_iff.mp hins
      obtain ⟨right', rest', hright, -, rfl⟩ := List.forall₂_cons_left_iff.mp hrest
      exact ⟨_, .union (hleft.length.symm.trans (hwidth.trans hright.length)), hleft⟩

mutual
/-- The tasks of a tree are the same. -/
theorem add_retyped (hc : c.Retypes c') : ∀ {t : PlanTree} {s s' : State} {schema : Schema},
    add c p t s = .ok (schema, s') →
      ∃ schema', add c' p t s = .ok (schema', s') ∧ schema.SameNames schema'
  | .fault f, _, _, _, h => by simp [add] at h
  | .node id op inputs, s, s', schema, h => by
      simp only [add, bind, Except.bind] at h ⊢
      split at h
      · cases h
      · rename_i result hinputs
        split at h
        · cases h
        · rename_i made hop
          split at h
          · cases h
          · rename_i s₂ hconnect
            cases h
            obtain ⟨ins', hins', hnames⟩ := addAll_retyped hc hinputs
            obtain ⟨schema', hop', hname⟩ := operator_retyped hc hnames hop
            refine ⟨schema', ?_, hname⟩
            rw [hins']
            simp only [hop', hconnect]
            rfl
theorem addAll_retyped (hc : c.Retypes c') :
    ∀ {ts : List PlanTree} {s s' : State} {schemas : List Schema},
      addAll c p ts s = .ok (schemas, s') →
        ∃ schemas', addAll c' p ts s = .ok (schemas', s') ∧
          List.Forall₂ Schema.SameNames schemas schemas'
  | [], _, _, _, h => by
      simp only [addAll] at h
      cases h
      exact ⟨[], by simp only [addAll], .nil⟩
  | t :: ts, s, s', schemas, h => by
      simp only [addAll, bind, Except.bind] at h ⊢
      split at h
      · cases h
      · rename_i first hfirst
        split at h
        · cases h
        · rename_i rest hrest
          cases h
          obtain ⟨schema', hfirst', hname⟩ := add_retyped hc hfirst
          obtain ⟨schemas', hrest', hnames⟩ := addAll_retyped hc hrest
          refine ⟨schema' :: schemas', ?_, .cons hname hnames⟩
          rw [hfirst']
          simp only [hrest']
          rfl
end

end Assembly

/-- **A plan is assembled to the same tasks** on a catalog that differs in types only. -/
theorem Plan.assemble_retyped {p : Plan} {c c' : Catalog} {a : Assembly} (hc : c.Retypes c')
    (h : p.assemble c = .ok a) :
    ∃ schema, p.assemble c' = .ok { a with schema } ∧ a.schema.SameNames schema := by
  unfold assemble at h
  simp only [bind, Except.bind] at h
  split at h
  · cases h
  · rename_i added hadd
    obtain ⟨schema', hadd', hnames⟩ := Assembly.add_retyped hc hadd
    split at h
    · cases h
    · rename_i root hroot
      split at h
      · cases h
      · rename_i output w houtput
        cases h
        refine ⟨schema', ?_, hnames⟩
        unfold assemble
        simp only [bind, Except.bind, hadd', hroot, houtput]
        rfl

/-! ### Running -/

namespace Executor

/-- A result gets another schema. -/
def Answer.relabel (s : Schema) : Answer → Answer
  | .result r => .result { r with schema := s }
  | ans => ans

def Activity.relabel (s : Schema) : Activity → Activity
  | .idle ans => .idle (ans.relabel s)
  | act => act

/-- An executor gets another schema. -/
def relabel (s : Schema) (e : Executor) : Executor :=
  { e with schema := some s, activity := e.activity.relabel s }

variable (s : Schema) (e : Executor)

@[simp] theorem relabel_queries : (e.relabel s).queries = e.queries := rfl

@[simp] theorem relabel_output : (e.relabel s).output = e.output := rfl

@[simp] theorem relabel_activity : (e.relabel s).activity = e.activity.relabel s := rfl

theorem relabel_waiting : (e.relabel s).waiting = e.waiting.relabel s := by
  obtain ⟨queries, configured, output, schema, handle, started, activity⟩ := e
  cases activity <;> rfl

theorem relabel_answered (r : Except ChannelError Item) :
    (e.relabel s).answered r = (e.answered r).relabel s := by
  obtain ⟨queries, configured, output, schema, handle, started, activity⟩ := e
  rcases r with err | row | _ <;> cases activity <;> rfl

theorem relabel_cancel : (e.relabel s).cancel = e.cancel.relabel s := by
  obtain ⟨queries, configured, output, schema, handle, started, activity⟩ := e
  cases handle <;> rfl

theorem relabel_dropOutput : (e.relabel s).dropOutput = e.dropOutput.relabel s := by
  obtain ⟨queries, configured, output, schema, handle, started, activity⟩ := e
  cases output <;> rfl

theorem relabel_stepRead (begun giveUp : Bool) :
    (e.relabel s).stepRead begun giveUp = (e.stepRead begun giveUp).map (relabel s) := by
  unfold stepRead
  rw [relabel_output, relabel_queries]
  cases e.output with
  | none => rfl
  | some q =>
      simp only [Option.bind_eq_bind, Option.bind_some]
      cases e.queries[q]? with
      | none => rfl
      | some query =>
          simp only [Option.bind_some]
          cases query.network.channels[query.output]? with
          | none => rfl
          | some c =>
              simp only [Option.bind_some]
              split
              · split
                · split
                  · rw [relabel_answered]; rfl
                  · rfl
                · cases c.take? with
                  | none => rfl
                  | some taken =>
                      have hset : ∀ n, (e.relabel s).setNetwork q n = (e.setNetwork q n).relabel s :=
                        fun _ => rfl
                      simp only [Option.bind_some, hset, relabel_answered, Option.map_some]
              · split
                · rfl
                · split
                  · rw [relabel_answered]; rfl
                  · rw [relabel_waiting]; rfl

theorem relabel_joinedResult (p : Purpose) (before : Bool) (j : Joined) :
    (e.relabel s).joinedResult p before j = (e.joinedResult p before j).relabel s := by
  have hclose : (closeResult before j).relabel s = closeResult before j := by
    unfold closeResult
    split
    · rfl
    · rfl
    · split <;> rfl
  unfold joinedResult
  cases p with
  | close => exact hclose.symm
  | shutDown => rfl
  | execute read =>
      cases hans : closeResult before j with
      | ok => cases read <;> rfl
      | _ => rw [hans] at hclose; exact hclose.symm

theorem relabel_stepCaller (giveUp : Bool) :
    (e.relabel s).stepCaller giveUp = (e.stepCaller giveUp).map (relabel s) := by
  unfold stepCaller
  cases hact : e.activity with
  | idle ans => simp only [relabel_activity, hact, Activity.relabel, Option.map_none]
  | reading begun => simp only [relabel_activity, hact, Activity.relabel, relabel_stepRead]
  | collecting rows begun => simp only [relabel_activity, hact, Activity.relabel, relabel_stepRead]
  | stopping p =>
      simp only [relabel_activity, hact, Activity.relabel]
      split <;> rfl
  | draining p before =>
      have hdrained : (e.relabel s).isDrained = e.isDrained := rfl
      simp only [relabel_activity, hact, Activity.relabel, hdrained, relabel_cancel]
      split
      · rfl
      · split <;> rfl
  | joining p before left j =>
      simp only [relabel_activity, hact, Activity.relabel]
      cases left with
      | nil =>
          simp only [relabel_joinedResult, relabel_dropOutput]
          split <;> rfl
      | cons next left =>
          have houtcome : (e.relabel s).outcome? next.1 next.2 = e.outcome? next.1 next.2 := rfl
          simp only [houtcome]
          split
          · rfl
          · cases e.outcome? next.1 next.2 <;> rfl

theorem relabel_settle : (e.relabel s).settle = e.settle.relabel s := by
  have hfold : ∀ (qs : List Nat) (e : Executor),
      qs.foldl (fun e q => e.onNetwork q Network.settle) (e.relabel s) =
        (qs.foldl (fun e q => e.onNetwork q Network.settle) e).relabel s := by
    intro qs
    induction qs with
    | nil => intro e; rfl
    | cons q qs ih => intro e; exact ih (e.onNetwork q Network.settle)
  exact hfold e.started e

/-- **An executor with another schema goes through the same steps.** -/
theorem relabel_drive (fuel : Nat) : ∀ e : Executor, (e.relabel s).drive fuel =
    ((e.drive fuel).1.relabel s, (e.drive fuel).2.relabel s) := by
  induction fuel with
  | zero => intro e; rfl
  | succ fuel ih =>
      intro e
      have hany : (e.relabel s).settle.stepCallerAny =
          e.settle.stepCallerAny.map (relabel s) := by
        rw [relabel_settle]
        unfold stepCallerAny
        rw [relabel_stepCaller, relabel_stepCaller]
        cases e.settle.stepCaller false <;> rfl
      unfold drive
      rw [relabel_activity]
      cases e.activity with
      | idle ans => rfl
      | _ =>
          simp only [Activity.relabel, hany]
          cases e.settle.stepCallerAny with
          | none => simp only [Option.map_none, relabel_settle, Answer.relabel]
          | some e' => exact ih e'

/-- Executing an assembly with another schema. -/
theorem relabel_execute (a : Assembly) :
    ((new.configure { a with schema := s }).call .execute).2 =
      ((new.configure a).call .execute).2.relabel s := by
  have hbegin : (new.configure { a with schema := s }).begin .execute =
      ((new.configure a).begin .execute).relabel s := rfl
  unfold call
  simp only [hbegin, relabel_drive]
  rfl

end Executor

namespace CommandLine

open Executor

variable {c c' : Catalog} {p : Plan} {r : QueryResult} {count : Nat}

/-- A query that answers has assembled its plan and executed it. -/
theorem query_cases (h : query c p = .ok (r, count)) : ∃ a, p.assemble c = .ok a ∧
    ((new.configure a).call .execute).2 = .result r ∧ count = a.tasks.length := by
  unfold query at h
  split at h
  · cases h
  · rename_i a ha
    refine ⟨a, ha, ?_⟩
    split at h <;> cases h
    rename_i e' hcall
    rw [hcall]
    exact ⟨rfl, rfl⟩

theorem query_of_execute {a : Assembly} (ha : p.assemble c = .ok a)
    (hans : ((new.configure a).call .execute).2 = .result r) :
    query c p = .ok (r, a.tasks.length) := by
  unfold query
  rw [ha]
  simp only
  generalize (new.configure a).call .execute = result at hans
  obtain ⟨e, ans⟩ := result
  cases hans
  rfl

/-- **A query on a catalog that differs in types only has the same rows under the same names.** -/
theorem query_retyped (hc : c.Retypes c') (h : query c p = .ok (r, count)) :
    ∃ schema, query c' p = .ok (⟨schema, r.rows⟩, count) ∧ r.schema.SameNames schema := by
  obtain ⟨a, ha, hans, rfl⟩ := query_cases h
  obtain ⟨schema, ha', hnames⟩ := Plan.assemble_retyped hc ha
  -- the schema of the result is that of the assembly, because executing is told the latter
  have hown : r = { r with schema := a.schema } := by
    have hboth := relabel_execute a.schema a
    rw [hans] at hboth
    exact Answer.result.inj hboth
  have hother := relabel_execute schema a
  rw [hans] at hother
  have hquery := query_of_execute ha' hother
  exact ⟨schema, hquery, by rw [hown]; exact hnames⟩

/-- What is written of an answer are the names of its columns and its rows. -/
theorem render_sameNames (format : Config.OutputFormat) {schema schema' : Schema} {rows : List Row}
    (h : schema.SameNames schema') : render format ⟨schema, rows⟩ = render format ⟨schema', rows⟩ := by
  have hsizes : schema.map (fun a => a.name.utf8ByteSize) =
      schema'.map fun a => a.name.utf8ByteSize := by
    have hmapped := congrArg (List.map String.utf8ByteSize) h
    rw [List.map_map, List.map_map] at hmapped
    exact hmapped
  have htexts : schema.map (fun a => Json.str a.name) = schema'.map fun a => Json.str a.name := by
    have hmapped := congrArg (List.map Json.str) h
    rw [List.map_map, List.map_map] at hmapped
    exact hmapped
  unfold Schema.SameNames at h
  cases format with
  | table => simp only [render, QueryResult.table, QueryResult.width, h, hsizes]
  | json => simp only [render, QueryResult.toJson, htexts]

end CommandLine

end StreamQuery
