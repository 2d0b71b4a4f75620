/-
What a query carries from its tables to its answer.

`Network.Carries` says of a network that every row in a channel has a property of that
channel, that the operators at work carry these properties from their inputs to their
outputs, and that no worker has crashed at a defect that is not admitted.  It is true
before the first step if the operators that are built for the plan carry the properties,
every step preserves it, and the caller reads from one of the channels.

Which properties and which defects these are is left open.  `Plan.Carries` is all that
has to be shown of them, one operation at a time.
-/
import StreamQuery.Proofs.Operator.Carry
import StreamQuery.Proofs.Query.Acceptance
import StreamQuery.Proofs.Query.Liveness

namespace StreamQuery

/-- The rows that have the property for the schema at a position. -/
def Schema.RowsAt (has : Schema → Row → Prop) (schemas : List Schema) (i : Nat) (row : Row) :
    Prop :=
  ∃ schema, schemas[i]? = some schema ∧ has schema row

theorem Schema.RowsAt.has {has : Schema → Row → Prop} {schemas : List Schema} {i : Nat} {row : Row}
    {schema : Schema} (h : Schema.RowsAt has schemas i row) (hs : schemas[i]? = some schema) :
    has schema row := by
  obtain ⟨schema', hs', hrow⟩ := h
  rw [hs] at hs'
  cases hs'
  exact hrow

/-- Every operator that is built for the plan carries the property for the schemas of its inputs to
the property for the schema of its rows. -/
def Plan.Carries (p : Plan) (cat : Catalog) (has : Schema → Row → Prop)
    (admitted : RunDefect → Prop) : Prop :=
  ∀ {n : NodeId} {op : PlanNode} {ins : List Schema} {o : Operator} {schema : Schema},
    p.node? n = some op → (p.inputs n).length = op.inputCount →
      List.Forall₂ (p.HasSchema cat) (p.inputs n) ins →
        Assembly.Builds cat op ins o schema →
          o.stage.Carries (Schema.RowsAt has ins) (has schema) admitted

/-! ### Networks -/

/-- What the inputs of a worker promise, by position. -/
def Worker.Promised (w : Worker) (fits : Nat → Row → Prop) (pos : Nat) (row : Row) : Prop :=
  ∃ i, w.inputs[pos]? = some i ∧ fits i row

namespace Network

/-- The rows of every channel have the property of the channel. -/
structure Carries (n : Network) (fits : Nat → Row → Prop) (admitted : RunDefect → Prop) :
    Prop where
  slot : ∀ (i : Nat) (c : Channel) (row : Row), n.channels[i]? = some c →
    c.slot = some (.row row) → fits i row
  stage : ∀ (k : Nat) (w : Worker) (s : Stage) (waiting : Bool), n.workers[k]? = some w →
    w.life = .working s waiting → s.Carries (w.Promised fits) (fits k) admitted
  /-- Workers have crashed at admitted defects only. -/
  ended : ∀ (k : Nat) (w : Worker) (d : RunDefect), n.workers[k]? = some w →
    w.life.ended? = some (.crashed d) → admitted d

namespace Carries

variable {n n' : Network} {fits : Nat → Row → Prop} {admitted : RunDefect → Prop} {i k : Nat}
  {c c' : Channel} {w : Worker} {life : Life} {o : Outcome}

theorem setChannel (h : n.Carries fits admitted) (hc : n.channels[i]? = some c)
    (hslot : ∀ row, c'.slot = some (.row row) → fits i row) :
    (n.setChannel i c').Carries fits admitted where
  slot := by
    intro j cj row hcj hrow
    rw [channels_setChannel hc] at hcj
    by_cases hj : j = i
    · rw [if_pos hj] at hcj
      cases hcj
      rw [hj]
      exact hslot row hrow
    · rw [if_neg hj] at hcj
      exact h.slot j cj row hcj hrow
  stage := h.stage
  ended := h.ended

/-- The life of a worker changes. -/
theorem setLife (h : n.Carries fits admitted) (hw : n.workers[k]? = some w)
    (hstage : ∀ s waiting, life = .working s waiting →
      s.Carries (w.Promised fits) (fits k) admitted)
    (hended : ∀ d, life.ended? = some (.crashed d) → admitted d) :
    (n.setLife k w life).Carries fits admitted where
  slot := h.slot
  stage := by
    intro j v s waiting hv hworking
    rw [workers_setLife hw] at hv
    by_cases hj : j = k
    · rw [if_pos hj] at hv
      cases hv
      rw [hj]
      exact hstage s waiting hworking
    · rw [if_neg hj] at hv
      exact h.stage j v s waiting hv hworking
  ended := by
    intro j v d hv hd
    rw [workers_setLife hw] at hv
    by_cases hj : j = k
    · rw [if_pos hj] at hv
      cases hv
      exact hended d hd
    · rw [if_neg hj] at hv
      exact h.ended j v d hv hd

/-- A worker goes on. -/
theorem working (h : n.Carries fits admitted) (hw : n.workers[k]? = some w) {s : Stage}
    {waiting : Bool} (hs : s.Carries (w.Promised fits) (fits k) admitted) :
    (n.setLife k w (.working s waiting)).Carries fits admitted :=
  h.setLife hw (fun _ _ heq => by cases heq; exact hs) fun d hd => by cases hd

/-- A worker ends or has ended. -/
theorem left (h : n.Carries fits admitted) (hw : n.workers[k]? = some w)
    (hlife : life.ended? = some o) (ho : ∀ d, o = .crashed d → admitted d) :
    (n.setLife k w life).Carries fits admitted := by
  refine h.setLife hw ?_ ?_
  · rintro s waiting rfl
    cases hlife
  · intro d hd
    rw [hlife] at hd
    exact ho d (Option.some.inj hd)

theorem outcome (h : n.Carries fits admitted) (hw : n.workers[k]? = some w)
    (hended : w.life.ended? = some o) : ∀ d, o = .crashed d → admitted d := by
  rintro d rfl
  exact h.ended k w d hw hended

theorem of_same (h : n.Carries fits admitted) (hworkers : n'.workers = n.workers)
    (hslots : ∀ i : Nat, n'.channels[i]?.map Channel.slot = n.channels[i]?.map Channel.slot) :
    n'.Carries fits admitted where
  slot := by
    intro i c row hc hrow
    have hsame := hslots i
    rw [hc, Option.map_some, eq_comm, Option.map_eq_some_iff] at hsame
    obtain ⟨c', hc', hslot⟩ := hsame
    exact h.slot i c' row hc' (hslot.trans hrow)
  stage := by rw [hworkers]; exact h.stage
  ended := by rw [hworkers]; exact h.ended

/-- What stands in the slot of a channel is taken out. -/
theorem take (h : n.Carries fits admitted) (hc : n.channels[i]? = some c) (finished : Bool) :
    (n.setChannel i { c with slot := none, finished := finished }).Carries fits admitted :=
  h.setChannel hc (by simp)

/-- **A step preserves what the channels carry.** -/
theorem step (h : n.Carries fits admitted) (hw : n.workers[k]? = some w)
    (hstep : Step n k w n') : n'.Carries fits admitted := by
  cases hstep with
  | wait hlife hwant => exact h.working hw (h.stage k w _ _ hw hlife)
  | halt hlife hwhy =>
      refine h.left hw rfl ?_
      rintro d rfl
      cases hwhy with
      | crashed hwant => exact (h.stage k w _ _ hw hlife).fail hwant
  | @receive s input i c item hlife hwant hi hc hslot =>
      refine (h.take hc item.isEnd).working hw ((h.stage k w s true hw hlife).accept hwant ?_)
      rintro row rfl
      exact ⟨i, hi, h.slot i c row hc hslot⟩
  | @send s after row c hlife hwant hc _ _ =>
      obtain ⟨hrow, hafter⟩ := (h.stage k w s true hw hlife).send hwant
      refine (h.setChannel hc ?_).working hw hafter
      intro row' hrow'
      cases hrow'
      exact hrow
  | close hlife hwant hc _ _ => exact (h.setChannel hc (by simp)).left hw rfl nofun
  | @dropSource o sources sink i c hlife hi hc =>
      have hslot : (n.setChannel i c.dropConsumer).Carries fits admitted :=
        h.setChannel hc fun row hrow => h.slot i c row hc hrow
      exact hslot.left hw (o := o) rfl (h.outcome hw (by rw [hlife]; rfl))
  | @dropSink o sources c hlife hc =>
      have hslot : (n.setChannel k c.dropProducer).Carries fits admitted :=
        h.setChannel hc fun row hrow => h.slot k c row hc hrow
      exact hslot.left hw (o := o) rfl (h.outcome hw (by rw [hlife]; rfl))
  | @finish o hlife =>
      obtain ⟨b, hb⟩ := finish_eq n k w o
      have hdone : (n.setLife k w (.done o)).Carries fits admitted :=
        h.left hw rfl (h.outcome hw (by rw [hlife]; rfl))
      rw [hb]
      exact ⟨hdone.slot, hdone.stage, hdone.ended⟩

end Carries

variable {p : Plan} {cat : Catalog} {a : Assembly} {schemas : List Schema}
  {has : Schema → Row → Prop} {admitted : RunDefect → Prop}

/-- Before the first step the channels carry what the operators of the plan carry. -/
theorem carries_ofAssembly (hp : p.Carries cat has admitted)
    (hl : Assembly.Layout p cat a.tasks schemas [a.output]) :
    (ofAssembly a).Carries (Schema.RowsAt has schemas) admitted where
  slot := by
    intro i c row hc hrow
    obtain rfl := channels_ofAssembly hc
    cases hrow
  stage := by
    intro k w s waiting hw hlife
    obtain ⟨t, ht, rfl⟩ := workers_ofAssembly hw
    cases hlife
    obtain ⟨op, ins, schema, hnode, hcount, hins, hschema, hop⟩ := (hl.laid k t ht).operation
    have hcarries := hp hnode hcount (hl.hasSchemas ht hins) (Assembly.operator_eq_ok_iff.mp hop)
    have hpromised : Worker.Promised ⟨t.inputs, t.output, .working t.operator.stage false⟩
        (Schema.RowsAt has schemas) = Schema.RowsAt has ins := by
      funext pos row
      by_cases hpos : pos < ins.length
      · have hpos' : pos < t.inputs.length := hins.length_eq ▸ hpos
        have hinput : schemas[t.inputs[pos]]? = some ins[pos] := hins.get hpos hpos'
        simp [Worker.Promised, Schema.RowsAt, List.getElem?_eq_getElem hpos,
          List.getElem?_eq_getElem hpos', hinput]
      · have hpos' : ¬ pos < t.inputs.length := hins.length_eq ▸ hpos
        simp [Worker.Promised, Schema.RowsAt, List.getElem?_eq_none (Nat.le_of_not_lt hpos),
          List.getElem?_eq_none (Nat.le_of_not_lt hpos')]
    have hout : Schema.RowsAt has schemas k = has schema := by
      funext row
      simp [Schema.RowsAt, hschema]
    rw [hout, hpromised]
    exact hcarries
  ended := by
    intro k w d hw hd
    obtain ⟨t, -, rfl⟩ := workers_ofAssembly hw
    cases hd

end Network

namespace Executor

/-! ### What the caller gets -/

/-- The rows of an answer have a property, its schema is the given one, and no crash but an admitted
one is answered. -/
def Answer.Holds (fits : Row → Prop) (admitted : RunDefect → Prop) (schema : Schema) :
    Answer → Prop
  | .next (some row) => fits row
  | .result r => r.schema = schema ∧ ∀ row ∈ r.rows, fits row
  | .crashed d => admitted d
  | _ => True

/-- Rows that were read for an answer have a property. -/
def Purpose.Holds (fits : Row → Prop) : Purpose → Prop
  | .execute (.ok rows) => ∀ row ∈ rows, fits row
  | _ => True

/-- The workers that were joined had crashed at admitted defects only. -/
def Joined.Holds (admitted : RunDefect → Prop) (j : Joined) : Prop :=
  ∀ d, j.crash = some d → admitted d

/-- What the caller has read, joined or been answered holds. -/
def Activity.Holds (fits : Row → Prop) (admitted : RunDefect → Prop) (schema : Schema) :
    Activity → Prop
  | .idle ans => ans.Holds fits admitted schema
  | .reading _ => True
  | .collecting rows _ => ∀ row ∈ rows, fits row
  | .stopping p | .draining p _ => p.Holds fits
  | .joining p _ _ j => p.Holds fits ∧ j.Holds admitted

section Caller

variable {e e' e₀ : Executor} {q : Nat} {a : Assembly} {n n' : Network} {event : Event}
  {schema : Schema} {act : Activity} {fitsAt : Nat → Row → Prop} {fits : Row → Prop}
  {admitted : RunDefect → Prop} {p : Plan} {cat : Catalog}

theorem Joined.Holds.none : Joined.none.Holds admitted := nofun

theorem Joined.Holds.add {j : Joined} {o : Outcome} (h : j.Holds admitted)
    (ho : ∀ d, o = .crashed d → admitted d) : (j.add o).Holds admitted := by
  intro d hcrash
  cases o with
  | ok => exact h d hcrash
  | failed err => cases err <;> exact h d hcrash
  | crashed d' =>
      simp only [Joined.add, Option.or_eq_some_iff, Option.some.injEq] at hcrash
      rcases hcrash with hcrash | ⟨-, rfl⟩
      · exact h d hcrash
      · exact ho d' rfl

/-- What a call answers in the end is a matter of what it has read and joined. -/
theorem holds_joinedResult {purpose : Purpose} {before : Bool} {j : Joined}
    (hschema : e.schema = some schema) (hp : purpose.Holds fits) (hj : j.Holds admitted) :
    (e.joinedResult purpose before j).Holds fits admitted schema := by
  have hclose : (closeResult before j).Holds fits admitted schema := by
    unfold closeResult
    split
    · exact hj _ ‹_›
    · trivial
    · split <;> trivial
  unfold joinedResult
  split
  · trivial
  · exact hclose
  · split
    · exact ⟨by rw [hschema]; rfl, hp⟩
    · trivial
  · exact hclose

theorem holds_afterRead {waiting : Bool} {r : Except ChannelError Item}
    (h : act.Holds fits admitted schema) (hreads : act.reads? = some waiting)
    (hr : ∀ row, r = .ok (.row row) → fits row) :
    (act.afterRead r).Holds fits admitted schema := by
  rcases Activity.reads_cases hreads with rfl | ⟨rows, rfl⟩
  · rcases r with err | (row | _)
    · trivial
    · exact hr row rfl
    · trivial
  · rcases r with err | (row | _)
    · trivial
    · exact List.forall_mem_cons.mpr ⟨hr row rfl, h⟩
    · exact fun row hrow => h row (List.mem_reverse.mp hrow)

theorem holds_begun (h : act.Holds fits admitted schema) : act.begun.Holds fits admitted schema := by
  cases act <;> exact h

/-- A call begins with nothing read and nobody joined. -/
theorem holds_begin (e : Executor) (r : Request) :
    (e.begin r).activity.Holds fits admitted schema := by
  cases r with
  | execute =>
      unfold begin
      simp only
      split
      · trivial
      · exact fun row hrow => by cases hrow
      · trivial
  | shutDown =>
      unfold begin
      simp only
      split
      · trivial
      · exact ⟨trivial, .none⟩
  | _ =>
      unfold begin
      simp only
      split <;> trivial

/-! ### Runs -/

theorem Tick.carries (htick : Tick e q a n event e' n') (h : n.Carries fitsAt admitted) :
    n'.Carries fitsAt admitted := by
  cases htick with
  | worker _ hw hstep _ => exact h.step hw hstep
  | cancel _ _ => exact ⟨h.slot, h.stage, h.ended⟩
  | take _ hc _ _ => exact h.take hc _
  | drain _ hn _ =>
      rcases hn with ⟨rfl, -⟩ | ⟨rfl, -⟩
      · exact h
      · exact ⟨h.slot, h.stage, h.ended⟩
  | finish _ hworkers hslots => exact h.of_same hworkers hslots
  | _ => exact h

/-- **No event gives the caller anything that does not hold.** -/
theorem Tick.holds (htick : Tick e q a n event e' n') (hserves : e.Serves q a n)
    (h : n.Carries fitsAt admitted) (hout : ∀ row, fitsAt a.output row → fits row)
    (hact : e.activity.Holds fits admitted a.schema) :
    e'.activity.Holds fits admitted a.schema := by
  cases htick with
  | worker _ _ _ hshift => rw [hshift.activity]; exact hact
  | cancel _ hshift => rw [hshift.activity]; exact hact
  | elsewhere _ hshift => rw [hshift.activity]; exact hact
  | wait _ _ _ hshift => rw [hshift.activity]; exact holds_begun hact
  | @take c item hreads hc hslot hshift =>
      rw [hshift.activity]
      refine holds_afterRead hact hreads ?_
      intro row hrow
      cases hrow
      exact hout row (h.slot a.output c row hc hslot)
  | again hreads _ hshift => rw [hshift.activity]; exact holds_afterRead hact hreads (by simp)
  | fail hreads _ hshift => rw [hshift.activity]; exact holds_afterRead hact hreads (by simp)
  | stop hact' hshift =>
      rw [hact'] at hact
      rw [hshift.activity]
      exact hact
  | drain hact' _ hshift =>
      rw [hact'] at hact
      rw [hshift.activity]
      exact ⟨hact, .none⟩
  | join hact' ho hshift =>
      have hattends := hserves.attends
      rw [hact'] at hact hattends
      rw [hshift.activity]
      obtain ⟨m, hjoins⟩ := hattends
      obtain ⟨-, rfl, -, -⟩ := hserves.next_joined hjoins
      obtain ⟨w, hw, hlife⟩ := hserves.done_of_outcome ho
      exact ⟨hact.1, hact.2.add (h.outcome hw (by rw [hlife]; rfl))⟩
  | finish hact' _ _ _ _ _ _ _ _ _ _ hanswer =>
      rw [hact'] at hact
      rw [hanswer]
      exact holds_joinedResult hserves.schema hact.1 hact.2

/-- The networks that a query goes through carry what the first of them carries. -/
theorem Session.carries (hrest : e₀.AtRest) (ha : p.assemble cat = .ok a)
    (hstart : (Network.ofAssembly a).Carries fitsAt admitted) (h : Session e₀ a e) :
    ∃ n, e.Serves e₀.queries.length a n ∧ n.Carries fitsAt admitted := by
  induction h with
  | configured => exact ⟨_, serves_configure hrest ha, hstart⟩
  | act α hbefore hact ih =>
      obtain ⟨n, hn, hcarries⟩ := ih
      cases α with
      | event event =>
          obtain ⟨n', htick⟩ := step_tick hn hact
          exact ⟨n', htick.serves hn, htick.carries hcarries⟩
      | call r =>
          obtain rfl := act_call hact
          obtain ⟨n', hn', rfl | rfl⟩ := hn.call_cases r
          · exact ⟨_, hn', hcarries⟩
          · exact ⟨_, hn', hcarries.slot, hcarries.stage, hcarries.ended⟩

/-- **What its operators carry a query carries to its answers.**

An executor at rest is given the query.  In every state the query goes through, a row that an
operator sends, or that stands in its channel, has the property for the schema of its node, and
workers have crashed at admitted defects only.  What a call answers holds for the schema of the
answer. -/
theorem carries_to_answers {has : Schema → Row → Prop} (hrest : e₀.AtRest)
    (ha : p.assemble cat = .ok a) (hp : p.Carries cat has admitted) :
    (∀ e, Session e₀ a e → ∃ n, e.queries[e₀.queries.length]? = some ⟨n, a.output⟩ ∧
      (∀ (k : Nat) (t : Task), a.tasks[k]? = some t → ∃ schema, p.HasSchema cat t.node schema ∧
        (∀ w s waiting row after, n.workers[k]? = some w → w.life = .working s waiting →
          s.want = .send row after → has schema row) ∧
        ∀ c row, n.channels[k]? = some c → c.slot = some (.row row) → has schema row) ∧
      ∀ (k : Nat) (w : Worker) (d : RunDefect), n.workers[k]? = some w →
        w.life.ended? = some (.crashed d) → admitted d) ∧
    ∀ e r e₁ events e' ans, Session e₀ a e → e.act (.call r) = some e₁ →
      e₁.after events = some e' → e'.activity = .idle ans →
        ans.Holds (has a.schema) admitted a.schema := by
  obtain ⟨root, schemas, t, -, hl, -, -, hschema⟩ := Assembly.layout_of_assemble ha
  have hstart := Network.carries_ofAssembly hp hl
  refine ⟨?_, ?_⟩
  · intro e hsession
    obtain ⟨n, hn, hcarries⟩ := hsession.carries hrest ha hstart
    refine ⟨n, hn.query, ?_, hcarries.ended⟩
    intro k t ht
    obtain ⟨-, -, schema, -, -, -, hs, -⟩ := (hl.laid k t ht).operation
    refine ⟨schema, hl.hasSchema k t schema ht hs, ?_, ?_⟩
    · intro w s waiting row after hw hlife hwant
      exact ((hcarries.stage k w s waiting hw hlife).send hwant).1.has hs
    · intro c row hc hrow
      exact (hcarries.slot k c row hc hrow).has hs
  · intro e r e₁ events e' ans hsession hcall hrun hans
    have hout : ∀ row, Schema.RowsAt has schemas a.output row → has a.schema row :=
      fun row hrow => hrow.has hschema
    obtain ⟨n, hn, hcarries⟩ := (hsession.act (.call r) hcall).carries hrest ha hstart
    obtain ⟨n', -, -, hholds⟩ := hn.run
      (P := fun e n => n.Carries (Schema.RowsAt has schemas) admitted ∧
        e.activity.Holds (has a.schema) admitted a.schema)
      ⟨hcarries, act_call hcall ▸ holds_begin e r⟩
      (fun event _ _ _ _ _ hserves h htick =>
        ⟨htick.carries h.1, htick.holds hserves h.1 hout h.2⟩) hrun
    rw [hans] at hholds
    exact hholds

end Caller

end Executor

end StreamQuery
