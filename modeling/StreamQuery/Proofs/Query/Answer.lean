/-
What executing a query answers.

A query is executed by reading its answer to the end, stopping it and joining its
workers.  While the caller reads, the rows it has read and those that the network still
delivers make up what the plan means; this is so at the beginning, and no event changes
it.  If the caller reads the closing mark then nothing more comes, so it has read what
the plan means, and every worker has ended well.  If a worker crashed then joining
finds it.  So whatever goes wrong, and whenever, the answer is never a wrong one.

When no expression lacks a value, no closing mark is stored as a row and nobody cancels,
nothing goes wrong, and there is only one answer, for all orders of steps.
-/
import StreamQuery.Proofs.Plan.Path
import StreamQuery.Proofs.Query.Healthy
import StreamQuery.Proofs.Query.Session

namespace StreamQuery

/-! ### What a plan reads from storage -/

/-- What an operation reads that was stored, in the plan or in a table of the catalog. -/
def PlanNode.stored (cat : Catalog) : PlanNode → List Item
  | .scan table => ((cat.named? table).map Table.rows).getD []
  | .values _ rows => rows
  | _ => []

namespace Plan

variable {p : Plan} {cat : Catalog} {n : NodeId} {d : SendDefect}

/-- No row that the plan reads from storage is a closing mark. -/
def ReadsRows (p : Plan) (cat : Catalog) : Prop :=
  ∀ root n op, p.root = some root → p.Reaches root n → p.node? n = some op →
    .endOfStream ∉ op.stored cat

/-- Only a mark that is stored cannot be sent. -/
theorem Breaks.exists_mark (h : p.Breaks cat n (.sending d)) :
    ∃ m op, p.Reaches n m ∧ p.node? m = some op ∧ .endOfStream ∈ op.stored cat := by
  generalize hd : RunDefect.sending d = defect at h
  induction h with
  | @scan n table t hnode htable hmark =>
      refine ⟨n, _, .refl p n, hnode, ?_⟩
      rw [PlanNode.stored, htable]
      exact hmark
  | @values n schema stored hnode hmark => exact ⟨n, _, .refl p n, hnode, hmark⟩
  | filter _ _ _ _ hfail =>
      obtain ⟨e, rfl⟩ := Scalar.select_eq_error hfail
      cases hd
  | project _ _ _ _ hfail =>
      obtain ⟨e, rfl⟩ := Scalar.compute_eq_error hfail
      cases hd
  | join _ _ _ _ _ hfail =>
      obtain ⟨e, rfl⟩ := Scalar.select_eq_error hfail
      cases hd
  | input hin _ ih =>
      obtain ⟨m, op, hreach, hnode, hmark⟩ := ih hd
      exact ⟨m, op, (reaches_of_input hin).trans hreach, hnode, hmark⟩

/-- A plan that reads only rows crashes only where an expression has no value. -/
theorem ReadsRows.lacksValue (h : p.ReadsRows cat) (hcrash : p.Crashes cat) :
    p.LacksValue cat := by
  obtain ⟨root, d, hroot, hd⟩ := hcrash
  cases d with
  | evaluation d => exact ⟨root, d, hroot, hd⟩
  | sending d =>
      obtain ⟨m, op, hreach, hnode, hmark⟩ := hd.exists_mark
      exact absurd hmark (h root m op hroot hreach hnode)

end Plan

/-! ### What joining finds -/

/-- The defect with which a worker crashed. -/
def Worker.crash? (w : Worker) : Option RunDefect :=
  match w.life with
  | .done (.crashed d) => some d
  | _ => none

namespace Network

/-- The defect of the first worker that crashed, in the order of their numbers. -/
def firstCrash? (n : Network) : Option RunDefect :=
  n.workers.findSome? Worker.crash?

/-- All workers have ended well. -/
def AllWell (n : Network) : Prop :=
  ∀ (k : Nat) (w : Worker), n.workers[k]? = some w → w.life = .done .ok

end Network

namespace Executor

theorem foldl_add_crash (ws : List Worker) : ∀ j : Joined,
    ((ws.filterMap fun w => w.life.outcome?).foldl Joined.add j).crash
      = j.crash.or (ws.findSome? Worker.crash?) := by
  induction ws with
  | nil => intro j; simp
  | cons w ws ih =>
      intro j
      rw [List.filterMap_cons, List.findSome?_cons]
      cases hlife : w.life with
      | working s waiting =>
          have hc : w.crash? = none := by rw [Worker.crash?, hlife]
          rw [hc]
          exact ih j
      | leaving o sources sink =>
          have hc : w.crash? = none := by rw [Worker.crash?, hlife]
          rw [hc]
          exact ih j
      | done o =>
          refine (ih (j.add o)).trans ?_
          cases o with
          | ok =>
              have hc : w.crash? = none := by rw [Worker.crash?, hlife]
              rw [hc]
              rfl
          | failed err =>
              have hc : w.crash? = none := by rw [Worker.crash?, hlife]
              rw [hc]
              cases err <;> rfl
          | crashed d =>
              have hc : w.crash? = some d := by rw [Worker.crash?, hlife]
              rw [hc]
              cases hj : j.crash <;> simp [Joined.add, hj]

theorem joined_crash {n : Network} {m : Nat} (hm : n.workers.length ≤ m) :
    (n.joined m).crash = n.firstCrash? := by
  unfold Network.joined
  rw [List.take_of_length_le hm, foldl_add_crash]
  rfl

theorem foldl_add_ok {ws : List Worker} (h : ∀ w ∈ ws, w.life = .done .ok) (j : Joined) :
    (ws.filterMap fun w => w.life.outcome?).foldl Joined.add j = j := by
  induction ws with
  | nil => rfl
  | cons w ws ih =>
      rw [List.filterMap_cons, h w List.mem_cons_self]
      exact ih fun v hv => h v (List.mem_cons_of_mem _ hv)

theorem joined_of_allWell {n : Network} (h : n.AllWell) (m : Nat) : n.joined m = .none := by
  refine foldl_add_ok ?_ _
  intro w hw
  obtain ⟨k, hk⟩ := List.mem_iff_getElem?.mp (List.mem_of_mem_take hw)
  exact h k w hk

/-- A crash is the answer of an execution exactly when joining found one. -/
theorem joinedResult_eq_crashed_iff {e : Executor} {read : Except ChannelError (List Row)}
    {before : Bool} {j : Joined} {d : RunDefect} :
    e.joinedResult (.execute read) before j = .crashed d ↔ j.crash = some d := by
  unfold joinedResult closeResult
  cases hcrash : j.crash with
  | some d' => simp
  | none =>
      cases j.failure with
      | some err => simp
      | none =>
          cases hcancelled : j.cancelled && before with
          | true => simp
          | false => cases read <;> simp

theorem closeResult_ne_result {before : Bool} {j : Joined} {r : QueryResult} :
    closeResult before j ≠ .result r := by
  intro h
  unfold closeResult at h
  split at h
  · simp at h
  · simp at h
  · split at h <;> cases h

theorem joinedResult_eq_result {e : Executor} {read : Except ChannelError (List Row)}
    {before : Bool} {j : Joined} {r : QueryResult}
    (h : e.joinedResult (.execute read) before j = .result r) :
    read = .ok r.rows ∧ r.schema = e.schema.getD [] := by
  unfold joinedResult at h
  cases hclose : closeResult before j with
  | ok =>
      rw [hclose] at h
      cases read with
      | ok rows => cases h; exact ⟨rfl, rfl⟩
      | error err => cases h
  | result r' => exact absurd hclose closeResult_ne_result
  | _ => rw [hclose] at h; cases h

theorem joinedResult_of_none {e : Executor} {rows : List Row} {before : Bool} :
    e.joinedResult (.execute (.ok rows)) before .none = .result ⟨e.schema.getD [], rows⟩ := by
  rfl

/-! ### Whatever goes wrong -/

/-- The answer of an execution fits what became of the workers and says what was meant. -/
structure Explained (a : Assembly) (n : Network) (Meant : List Row → Prop) (ans : Answer) :
    Prop where
  crashed : ∀ d, ans = .crashed d ↔ n.firstCrash? = some d
  result : ∀ r, ans = .result r → n.AllWell ∧ r.schema = a.schema ∧ Meant r.rows

/-- What an execution has come to. -/
def Executes (e : Executor) (q : Nat) (a : Assembly) (n : Network) (Meant : List Row → Prop) :
    Activity → Prop
  | .collecting rows _ =>
    e.started = [q] ∧ ∀ rest, n.Delivers a.output rest → Meant (rows.reverse ++ rest)
  | .stopping p | .draining p _ | .joining p _ _ _ =>
    e.started = [q] ∧ ∃ read, p = .execute read ∧
      ∀ rows, read = .ok rows → n.Drained a.output ∧ Meant rows
  | .idle ans => e.started = [] ∧ n.AllDone ∧ Explained a n Meant ans
  | .reading _ => False

section Executing

variable {e e' : Executor} {q : Nat} {a : Assembly} {n n' : Network} {event : Event}
  {Meant : List Row → Prop}

theorem Executes.of_lasts {act : Activity} (h : e.Executes q a n Meant act)
    (hstarted : e'.started = e.started)
    (hd : ∀ rest, n'.Delivers a.output rest → n.Delivers a.output rest)
    (hdrained : n.Drained a.output → n'.Drained a.output)
    (hidle : e.started = [] → n'.workers = n.workers) : e'.Executes q a n' Meant act := by
  cases act with
  | idle ans =>
      obtain ⟨hs, hdone, hcrashed, hresult⟩ := h
      have hworkers := hidle hs
      refine ⟨hstarted.trans hs, ?_, ?_, ?_⟩
      · unfold Network.AllDone
        rw [hworkers]
        exact hdone
      · unfold Network.firstCrash?
        rw [hworkers]
        exact hcrashed
      · unfold Network.AllWell
        rw [hworkers]
        exact hresult
  | reading waiting => exact h.elim
  | collecting rows waiting =>
      obtain ⟨hs, hmeant⟩ := h
      exact ⟨hstarted.trans hs, fun rest hrest => hmeant rest (hd rest hrest)⟩
  | stopping p =>
      obtain ⟨hs, read, hp, hread⟩ := h
      exact ⟨hstarted.trans hs, read, hp, fun rows hrows => (hread rows hrows).imp_left hdrained⟩
  | draining p before =>
      obtain ⟨hs, read, hp, hread⟩ := h
      exact ⟨hstarted.trans hs, read, hp, fun rows hrows => (hread rows hrows).imp_left hdrained⟩
  | joining p before left j =>
      obtain ⟨hs, read, hp, hread⟩ := h
      exact ⟨hstarted.trans hs, read, hp, fun rows hrows => (hread rows hrows).imp_left hdrained⟩

theorem delivers_cancel {i : Nat} {rows : List Row} (h : n.cancel.Delivers i rows) :
    n.Delivers i rows :=
  h.of_retains ⟨fun _ c' hc' => ⟨c', hc', id, rfl⟩,
    fun _ w' _ b hw' hlife => ⟨w', b, hw', rfl, hlife⟩⟩

/-- Reading the answer to its end leaves nothing that would still be delivered. -/
theorem meant_of_drained {rows : List Row} (hdrained : n.Drained a.output)
    (hmeant : ∀ rest, n.Delivers a.output rest → Meant (rows.reverse ++ rest)) :
    Meant rows.reverse := by
  obtain ⟨c, hc, hf⟩ := hdrained
  have hall := hmeant [] (.closed hc (.inl hf))
  rw [List.append_nil] at hall
  exact hall

/-- An execution that reads knows that what it has read and what comes is what is meant. -/
theorem Executes.of_reads (h : e.Executes q a n Meant e.activity) {waiting : Bool}
    (hreads : e.activity.reads? = some waiting) :
    ∃ rows, e.activity = .collecting rows waiting ∧ e.started = [q] ∧
      ∀ rest, n.Delivers a.output rest → Meant (rows.reverse ++ rest) := by
  rcases Activity.reads_cases hreads with hact | ⟨rows, hact⟩
  · rw [hact] at h
    exact h.elim
  · rw [hact] at h
    exact ⟨rows, hact, h⟩

/-- An item that was read is the next of those that were to come. -/
theorem Executes.took {rows : List Row} {waiting : Bool} {c : Channel} {item : Item}
    (hsound : n.Sound a.output) (hc : n.channels[a.output]? = some c)
    (hslot : c.slot = some item) (hs : e'.started = [q])
    (hmeant : ∀ rest, n.Delivers a.output rest → Meant (rows.reverse ++ rest)) :
    e'.Executes q a (n.setChannel a.output { c with slot := none, finished := item.isEnd }) Meant
      ((Activity.collecting rows waiting).afterRead (.ok item)) := by
  have hbefore : ∀ rest, (n.setChannel a.output
      { c with slot := none, finished := item.isEnd }).Delivers a.output rest →
      Meant (rows.reverse ++ item.before rest) := fun rest hd =>
    hmeant _ (hsound.before_caller_took hc hslot hd)
  have hread := Network.channels_setChannel hc { c with slot := none, finished := item.isEnd }
    a.output
  rw [if_pos rfl] at hread
  cases item with
  | row r =>
      refine ⟨hs, ?_⟩
      intro rest hd
      rw [List.reverse_cons, List.append_assoc]
      exact hbefore rest hd
  | endOfStream =>
      refine ⟨hs, _, rfl, fun rows' hrows' => ⟨⟨_, hread, rfl⟩, ?_⟩⟩
      cases hrows'
      have hnil := hbefore [] (.closed hread (.inl rfl))
      rw [Item.before, List.append_nil] at hnil
      exact hnil

/-- **No event leads an execution astray.** -/
theorem Tick.executes (htick : Tick e q a n event e' n') (hserves : e.Serves q a n)
    (h : e.Executes q a n Meant e.activity) : e'.Executes q a n' Meant e'.activity := by
  cases htick with
  | worker hstarted hw hstep hshift =>
      rw [hshift.activity]
      refine h.of_lasts hshift.started (fun rest hd => hstep.delivers_before hserves.sound hw hd)
        (fun hd => drained_of_lasts hd (hstep.lasts hserves.sound hw)) ?_
      intro hs
      rw [hstarted] at hs
      simp at hs
  | cancel _ hshift =>
      rw [hshift.activity]
      exact h.of_lasts hshift.started (fun rest hd => delivers_cancel hd) id fun _ => rfl
  | elsewhere _ hshift =>
      rw [hshift.activity]
      exact h.of_lasts hshift.started (fun rest hd => hd) id fun _ => rfl
  | wait hreads hc hopen hshift =>
      obtain ⟨rows, hact, hs, hmeant⟩ := h.of_reads hreads
      rw [hshift.activity, hact]
      exact ⟨hshift.started.trans hs, hmeant⟩
  | take hreads hc hslot hshift =>
      obtain ⟨rows, hact, hs, hmeant⟩ := h.of_reads hreads
      rw [hshift.activity, hact]
      exact .took hserves.sound hc hslot (hshift.started.trans hs) hmeant
  | again hreads hdrained hshift =>
      obtain ⟨rows, hact, hs, hmeant⟩ := h.of_reads hreads
      rw [hshift.activity, hact]
      refine ⟨hshift.started.trans hs, _, rfl, fun rows' hrows' => ⟨hdrained, ?_⟩⟩
      cases hrows'
      exact meant_of_drained hdrained hmeant
  | @fail waiting err hreads hwhy hshift =>
      obtain ⟨rows, hact, hs, -⟩ := h.of_reads hreads
      rw [hshift.activity, hact]
      exact ⟨hshift.started.trans hs, .error err, rfl, fun rows' hrows' => by cases hrows'⟩
  | stop hact hshift =>
      rw [hact] at h
      rw [hshift.activity]
      exact ⟨hshift.started.trans h.1, h.2⟩
  | @drain p before n' hact hn hshift =>
      rw [hact] at h
      rw [hshift.activity]
      obtain ⟨hs, read, hp, hread⟩ := h
      refine ⟨hshift.started.trans hs, read, hp, ?_⟩
      intro rows hrows
      rcases hn with ⟨rfl, -⟩ | ⟨rfl, hnot⟩
      · exact hread rows hrows
      · exact absurd (hread rows hrows).1 hnot
  | join hact ho hshift =>
      rw [hact] at h
      rw [hshift.activity]
      exact ⟨hshift.started.trans h.1, h.2⟩
  | @finish p before j n' hact hworkers _ hsound hsame hquery hschema hhandle hconfigured houtput
      hstarted hanswer =>
      have hattends := hserves.attends
      rw [hact] at h hattends
      obtain ⟨m, hjoins⟩ := hattends
      obtain ⟨hs, read, rfl, hread⟩ := h
      obtain ⟨hdone, hm⟩ := hserves.all_joined hjoins hs
      have hj := hjoins.joined_eq hs
      have hdone' : n'.AllDone := by
        unfold Network.AllDone
        rw [hworkers]
        exact hdone
      rw [hanswer]
      refine ⟨hstarted, hdone', ?_, ?_⟩
      · intro d
        rw [joinedResult_eq_crashed_iff, hj, joined_crash hm]
        unfold Network.firstCrash?
        rw [hworkers]
      · intro r hr
        obtain ⟨hrows, hschema'⟩ := joinedResult_eq_result hr
        obtain ⟨⟨c, hc, hf⟩, hmeant⟩ := hread r.rows hrows
        refine ⟨?_, ?_, hmeant⟩
        · intro k w hw
          rw [hworkers] at hw
          have hended := hserves.sound.all_ended hc (.inl hf) k w hw
          obtain ⟨o, ho⟩ := hdone k w hw
          rw [ho] at hended
          cases hended
          exact ho
        · rw [hschema', hserves.schema]
          rfl

/-- How a worker has ended stays. -/
theorem Tick.ended_mono (htick : Tick e q a n event e' n') (hserves : e.Serves q a n) {k : Nat}
    {w : Worker} {o : Outcome} (hw : n.workers[k]? = some w) (ho : w.life.ended? = some o) :
    ∃ w', n'.workers[k]? = some w' ∧ w'.life.ended? = some o := by
  cases htick with
  | worker hstarted hv hstep hshift =>
      exact (hstep.lasts hserves.sound hv).ended k w o hw ho
  | drain hact hn hshift =>
      rcases hn with ⟨rfl, -⟩ | ⟨rfl, -⟩ <;> exact ⟨w, hw, ho⟩
  | finish hact hworkers => exact ⟨w, by rw [hworkers]; exact hw, ho⟩
  | _ => exact ⟨w, hw, ho⟩

/-! ### Where an execution begins -/

/-- Until it is started, nothing but cancellations happens to a configured query. -/
theorem configured_run {e₀ : Executor} {p : Plan} {cat : Catalog} {before : List Event}
    (hrest : e₀.AtRest) (ha : p.assemble cat = .ok a)
    (hbefore : (e₀.configure a).after before = some e) :
    ∃ n, e.Serves e₀.queries.length a n ∧ e.configured = some e₀.queries.length := by
  have hserves := serves_configure hrest ha
  have hinv := hserves.run (P := fun e _ => e.configured = some e₀.queries.length ∧
    ∃ last, e.activity = .idle last) ⟨rfl, hrest.idle⟩ ?_ hbefore
  · obtain ⟨n, hn, hconfigured, -⟩ := hinv
    exact ⟨n, hn, hconfigured⟩
  · intro event _ e e' n n' hserves ⟨hconfigured, last, hact⟩ htick
    obtain ⟨hidle, -⟩ := hserves.untouched hconfigured
    cases htick with
    | worker hstarted _ _ _ => rw [hidle] at hstarted; cases hstarted
    | cancel _ hshift =>
        exact ⟨hshift.configured.trans hconfigured, last, hshift.activity.trans hact⟩
    | elsewhere _ hshift =>
        exact ⟨hshift.configured.trans hconfigured, last, hshift.activity.trans hact⟩
    | wait hreads _ _ _ => rw [hact] at hreads; cases hreads
    | take hreads _ _ _ => rw [hact] at hreads; cases hreads
    | again hreads _ _ => rw [hact] at hreads; cases hreads
    | fail hreads _ _ => rw [hact] at hreads; cases hreads
    | stop hact' _ => rw [hact] at hact'; cases hact'
    | drain hact' _ _ => rw [hact] at hact'; cases hact'
    | join hact' _ _ => rw [hact] at hact'; cases hact'
    | finish hact' => rw [hact] at hact'; cases hact'

/-- The rows that the network delivers before its first step are those that are meant. -/
theorem answers_of_fresh {p : Plan} {cat : Catalog} (ha : p.assemble cat = .ok a) {b : Bool}
    {rows : List Row} (hd : Network.Delivers
      { Network.ofAssembly a with cancelled := b } a.output rows) : p.Answers cat rows := by
  obtain ⟨root, schemas, t, hroot, hl, ht, htn, -⟩ := Assembly.layout_of_assemble ha
  have hfresh : (Network.ofAssembly a).Delivers a.output rows :=
    hd.of_retains ⟨fun _ c' hc' => ⟨c', hc', id, rfl⟩,
      fun _ w' _ b hw' hlife => ⟨w', b, hw', rfl, hlife⟩⟩
  have hy := Network.yields_of_delivers hl hfresh ht
  rw [htn] at hy
  exact ⟨root, hroot, hy⟩

/-- What an execution has come to after any events. -/
theorem executes_run {e₀ e₁ : Executor} {p : Plan} {cat : Catalog} {before events : List Event}
    (hrest : e₀.AtRest) (ha : p.assemble cat = .ok a)
    (hbefore : (e₀.configure a).after before = some e₁)
    (hrun : (e₁.begin .execute).after events = some e) :
    ∃ n, e.Serves e₀.queries.length a n ∧
      e.Executes e₀.queries.length a n (p.Answers cat) e.activity := by
  obtain ⟨n₁, hserves₁, hconfigured⟩ := configured_run hrest ha hbefore
  obtain ⟨hserves, hact, hstarted, b, rfl⟩ := hserves₁.execute hconfigured
  refine hserves.run
    (P := fun e n => e.Executes e₀.queries.length a n (p.Answers cat) e.activity) ?_
    (fun event _ _ _ _ _ hserves h htick => htick.executes hserves h) hrun
  rw [hact]
  exact ⟨hstarted, fun rest hd => answers_of_fresh ha hd⟩

/-- A worker of a query has crashed; it may still hold some of its halves. -/
def HasCrashed (e : Executor) (q k : Nat) : Prop :=
  ∃ query w d, e.queries[q]? = some query ∧ query.network.workers[k]? = some w ∧
    w.life.ended? = some (.crashed d)

/-- A worker that has crashed is found in the end. -/
theorem firstCrash_of_crashed {k : Nat} {w : Worker} {d : RunDefect}
    (hdone : n.AllDone) (hw : n.workers[k]? = some w) (hd : w.life.ended? = some (.crashed d)) :
    ∃ d', n.firstCrash? = some d' := by
  obtain ⟨o, ho⟩ := hdone k w hw
  rw [ho] at hd
  cases hd
  refine Option.isSome_iff_exists.mp (List.findSome?_isSome_iff.mpr
    ⟨w, List.mem_of_getElem? hw, ?_⟩)
  rw [Worker.crash?, ho]
  rfl

/-- **Whatever goes wrong, the answer of an execution is not a wrong one.** Before and during the
execution anybody may cancel at any time, workers may crash, and steps happen in any order.  When
the execution has come to its end, all workers are done and joined.  A result means that every
worker has ended well, and it is all that is meant.  The answer is a crash exactly when a worker
crashed, and then it is that of the first of them; no crash on the way gets lost. -/
theorem execute_never_wrong {e₀ e₁ e : Executor} {p : Plan} {cat : Catalog} {a : Assembly}
    {before events : List Event} {ans : Answer} (hrest : e₀.AtRest) (ha : p.assemble cat = .ok a)
    (hbefore : (e₀.configure a).after before = some e₁)
    (hrun : (e₁.begin .execute).after events = some e) (hans : e.activity = .idle ans) :
    ∃ n, e.queries[e₀.queries.length]? = some ⟨n, a.output⟩ ∧ e.started = [] ∧ n.AllDone ∧
      (∀ r, ans = .result r → n.AllWell ∧ r.schema = a.schema ∧ p.Answers cat r.rows) ∧
      (∀ d, ans = .crashed d ↔ n.firstCrash? = some d) ∧
      ∀ first second e', events = first ++ second → (e₁.begin .execute).after first = some e' →
        ∀ k, e'.HasCrashed e₀.queries.length k → ∃ d, ans = .crashed d := by
  obtain ⟨n, hn, hexecutes⟩ := executes_run hrest ha hbefore hrun
  rw [hans] at hexecutes
  obtain ⟨hs, hdone, hcrashed, hresult⟩ := hexecutes
  refine ⟨n, hn.query, hs, hdone, hresult, hcrashed, ?_⟩
  rintro first second e' rfl hfirst k ⟨query, w, d, hq, hw, hd⟩
  obtain ⟨e'', hfirst', hsecond⟩ := after_append hrun
  rw [hfirst] at hfirst'
  cases hfirst'
  obtain ⟨n', hn', -⟩ := executes_run hrest ha hbefore hfirst
  rw [hn'.query] at hq
  cases hq
  obtain ⟨n'', hn'', w', hw', hd'⟩ := hn'.run
    (P := fun _ n => ∃ w', n.workers[k]? = some w' ∧ w'.life.ended? = some (.crashed d))
    ⟨w, hw, hd⟩ (fun event _ _ _ _ _ hserves ⟨w', hw', hd'⟩ htick =>
      htick.ended_mono hserves hw' hd') hsecond
  have hsame : n'' = n := by
    have hboth := hn''.query.symm.trans hn.query
    cases hboth
    rfl
  subst hsame
  obtain ⟨d', hfound⟩ := firstCrash_of_crashed hdone hw' hd'
  exact ⟨d', (hcrashed d').mpr hfound⟩

/-- A filter on the opposite of a number. -/
def negatedNumber : Plan :=
  (((Plan.empty.addNode (.values [] [.row []])).addNode
    (.filter (.call .not [.literal (.int 1)]))).tryEdge 1 0).1

def negatedNumberAssembly : Assembly :=
  let condition : Expr := .call .not [.literal (.int 1)]
  ⟨[⟨0, .values [.row []], [], 0⟩,
    ⟨1, .filter ⟨condition, .negate (.constant (.int 1)) condition⟩, [0], 1⟩], 1, []⟩

/-- Steps of the workers of the first query, given by their numbers. -/
def proceeding (ks : List Nat) : List Event :=
  ks.map fun k => .worker 0 k .proceed

/-- The filter crashes on the first row, and then the worker that feeds it fails. -/
def negatedNumberRun : List Event :=
  .caller false :: proceeding [0, 0, 1, 1, 1] ++
    [.worker 0 1 (.dropSource 0), .worker 0 1 .dropSink] ++ proceeding [1, 0, 0] ++
    [.worker 0 0 .dropSink] ++ proceeding [0] ++
    [.caller false, .caller false, .caller false, .caller false, .caller false, .caller false]

/-- A filter on the opposite of a number: that its worker crashed is the answer. -/
theorem execute_never_wrong_of_number :
    ∃ (a : Assembly) (e : Executor) (n : Network) (d : RunDefect),
      negatedNumber.assemble (.empty "") = .ok a ∧
      e.queries[0]? = some ⟨n, a.output⟩ ∧ n.AllDone ∧ e.activity = .idle (.crashed d) ∧
        n.firstCrash? = some d := by
  have ha : negatedNumber.assemble (.empty "") = .ok negatedNumberAssembly := rfl
  have hall : (((new.configure negatedNumberAssembly).begin .execute).after
      negatedNumberRun).map Executor.activity =
      some (.idle (.crashed (.evaluation (.notBoolean (.int 1) (.call .not [.literal (.int 1)]))))) :=
    rfl
  obtain ⟨e, hrun, hans⟩ := Option.map_eq_some_iff.mp hall
  have hbefore : (new.configure negatedNumberAssembly).after []
      = some (new.configure negatedNumberAssembly) := rfl
  obtain ⟨n, hn, -, hdone, -, hcrashed, -⟩ := execute_never_wrong new_atRest ha hbefore hrun hans
  exact ⟨_, e, n, _, ha, hn, hdone, hans, (hcrashed _).mp rfl⟩

/-! ### When nothing goes wrong -/

/-- What an undisturbed execution has come to. -/
def Succeeds (e : Executor) (q : Nat) (a : Assembly) (n : Network) : Activity → Prop
  | .collecting _ _ => e.started = [q] ∧ n.Healthy a.output
  | .stopping p | .draining p _ | .joining p _ _ _ =>
    e.started = [q] ∧ n.Healthy a.output ∧ n.Drained a.output ∧ ∃ rows, p = .execute (.ok rows)
  | .idle ans => e.started = [] ∧ ∃ r, ans = .result r
  | .reading _ => False

theorem Succeeds.of_healthy {act : Activity} (h : e.Succeeds q a n act)
    (hstarted : e'.started = e.started) (hhealthy : n.Healthy a.output → n'.Healthy a.output)
    (hdrained : n.Drained a.output → n'.Drained a.output) : e'.Succeeds q a n' act := by
  cases act with
  | idle ans => exact ⟨hstarted.trans h.1, h.2⟩
  | reading waiting => exact h.elim
  | collecting rows waiting => exact ⟨hstarted.trans h.1, hhealthy h.2⟩
  | stopping p => exact ⟨hstarted.trans h.1, hhealthy h.2.1, hdrained h.2.2.1, h.2.2.2⟩
  | draining p before => exact ⟨hstarted.trans h.1, hhealthy h.2.1, hdrained h.2.2.1, h.2.2.2⟩
  | joining p before left j =>
      exact ⟨hstarted.trans h.1, hhealthy h.2.1, hdrained h.2.2.1, h.2.2.2⟩

/-- As long as no operator has failed and nobody has cancelled, a read does not fail. -/
theorem Serves.no_failed_read (hserves : e.Serves q a n) (hu : n.Unfailed)
    (hcalm : n.cancelled = false) {waiting : Bool} (hreads : e.activity.reads? = some waiting)
    (hwhy : n.cancelled = true ∨ (waiting = true ∧ ∃ c, n.channels[a.output]? = some c ∧
      c.slot = none ∧ c.producer = false)) : False := by
  rcases hwhy with hcancelled | ⟨rfl, c, hc, hslot, hgone⟩
  · rw [hcalm] at hcancelled
    simp at hcancelled
  · have hopen : c.finished = false := (hserves.attends_read hreads).2 rfl c hc
    rcases hu.closed_of_gone hserves.sound hc hgone with hf | hs
    · rw [hopen] at hf
      simp at hf
    · rw [hslot] at hs
      simp at hs

theorem Succeeds.of_reads (h : e.Succeeds q a n e.activity) {waiting : Bool}
    (hreads : e.activity.reads? = some waiting) :
    ∃ rows, e.activity = .collecting rows waiting ∧ e.started = [q] ∧ n.Healthy a.output := by
  rcases Activity.reads_cases hreads with hact | ⟨rows, hact⟩
  · rw [hact] at h
    exact h.elim
  · rw [hact] at h
    exact ⟨rows, hact, h⟩

/-- **As long as nobody cancels the query, an execution that goes well goes on well.** -/
theorem Tick.succeeds (htick : Tick e q a n event e' n') (hserves : e.Serves q a n)
    (hcalm : event ≠ .cancel q) (h : e.Succeeds q a n e.activity) :
    e'.Succeeds q a n' e'.activity := by
  cases htick with
  | worker hstarted hw hstep hshift =>
      rw [hshift.activity]
      exact h.of_healthy hshift.started
        (fun hh => hh.step hserves.sound (hserves.heard_of_started hstarted) hw hstep)
        fun hd => drained_of_lasts hd (hstep.lasts hserves.sound hw)
  | cancel hevent hshift => exact absurd hevent hcalm
  | elsewhere _ hshift =>
      rw [hshift.activity]
      exact h.of_healthy hshift.started id id
  | wait hreads hc hopen hshift =>
      obtain ⟨rows, hact, hs, hhealthy⟩ := h.of_reads hreads
      rw [hshift.activity, hact]
      exact ⟨hshift.started.trans hs, hhealthy⟩
  | @take c item hreads hc hslot hshift =>
      obtain ⟨rows, hact, hs, hbefore⟩ := h.of_reads hreads
      have hhealthy := hbefore.take hserves.sound hc hslot
      rw [hshift.activity, hact]
      cases item with
      | row r => exact ⟨hshift.started.trans hs, hhealthy⟩
      | endOfStream =>
          exact ⟨hshift.started.trans hs, hhealthy,
            ⟨_, (Network.channels_setChannel hc _ _).trans (if_pos rfl), rfl⟩, _, rfl⟩
  | again hreads hdrained hshift =>
      obtain ⟨rows, hact, hs, hhealthy⟩ := h.of_reads hreads
      rw [hshift.activity, hact]
      exact ⟨hshift.started.trans hs, hhealthy, hdrained, _, rfl⟩
  | fail hreads hwhy hshift =>
      obtain ⟨rows, -, -, hhealthy⟩ := h.of_reads hreads
      exact (hserves.no_failed_read hhealthy.unfailed hhealthy.uncancelled hreads hwhy).elim
  | stop hact hshift =>
      rw [hact] at h
      rw [hshift.activity]
      exact ⟨hshift.started.trans h.1, h.2⟩
  | @drain p before n' hact hn hshift =>
      rw [hact] at h
      rw [hshift.activity]
      rcases hn with ⟨rfl, -⟩ | ⟨rfl, hnot⟩
      · exact ⟨hshift.started.trans h.1, h.2⟩
      · exact absurd h.2.2.1 hnot
  | join hact ho hshift =>
      rw [hact] at h
      rw [hshift.activity]
      exact ⟨hshift.started.trans h.1, h.2⟩
  | @finish p before j n' hact hworkers _ hsound hsame hquery hschema hhandle hconfigured houtput
      hstarted hanswer =>
      have hattends := hserves.attends
      rw [hact] at h hattends
      obtain ⟨m, hjoins⟩ := hattends
      obtain ⟨hs, hhealthy, -, rows, rfl⟩ := h
      obtain ⟨hdone, -⟩ := hserves.all_joined hjoins hs
      have hwell : n.AllWell := by
        intro k w hw
        obtain ⟨o, ho⟩ := hdone k w hw
        obtain rfl := hhealthy.well k w o hw (by rw [ho]; rfl)
        exact ho
      rw [hanswer, hjoins.joined_eq hs, joined_of_allWell hwell, joinedResult_of_none]
      exact ⟨hstarted, _, rfl⟩

theorem healthy_fresh {p : Plan} {cat : Catalog} (ha : p.assemble cat = .ok a)
    (hfine : ¬ p.Crashes cat) : (Network.ofAssembly a).Healthy a.output := by
  obtain ⟨root, schemas, t, hroot, hl, ht, htn, -⟩ := Assembly.layout_of_assemble ha
  rcases Network.yields_or_breaks hl ht with ⟨rows, hy⟩ | ⟨d, hd⟩
  · exact Network.healthy_ofAssembly hl ht hy
  · rw [htn] at hd
    exact absurd ⟨root, d, hroot, hd⟩ hfine

/-- **An execution that nobody cancels answers what the plan means**, in whatever order its steps
happen, if no expression of the plan lacks a value and all that the plan reads from storage are
rows. -/
theorem execute_answers_plan {e₀ e : Executor} {p : Plan} {cat : Catalog} {a : Assembly}
    {events : List Event} {ans : Answer} (hrest : e₀.AtRest) (ha : p.assemble cat = .ok a)
    (hvalues : ¬ p.LacksValue cat) (hrows : p.ReadsRows cat)
    (hrun : ((e₀.configure a).begin .execute).after events = some e)
    (hcalm : Event.cancel e₀.queries.length ∉ events) (hans : e.activity = .idle ans) :
    ∃ rows, p.Answers cat rows ∧ (∀ rows', p.Answers cat rows' → rows' = rows) ∧
      ans = .result ⟨a.schema, rows⟩ := by
  have hfine : ¬ p.Crashes cat := fun hcrash => hvalues (hrows.lacksValue hcrash)
  obtain ⟨hserves, hact, hstarted, -⟩ := (serves_configure hrest ha).execute rfl
  have hstart : ((e₀.configure a).begin .execute).Succeeds e₀.queries.length a
      (Network.ofAssembly a) ((e₀.configure a).begin .execute).activity := by
    rw [hact]
    exact ⟨hstarted, healthy_fresh ha hfine⟩
  obtain ⟨n, -, hsucceeds⟩ := hserves.run
    (P := fun e n => e.Succeeds e₀.queries.length a n e.activity) hstart
    (fun event hmem _ _ _ _ hserves h htick =>
      htick.succeeds hserves (fun heq => hcalm (heq ▸ hmem)) h) hrun
  rw [hans] at hsucceeds
  obtain ⟨-, r, rfl⟩ := hsucceeds
  have hbefore : (e₀.configure a).after [] = some (e₀.configure a) := rfl
  obtain ⟨n', -, hexecutes⟩ := executes_run hrest ha hbefore hrun
  rw [hans] at hexecutes
  obtain ⟨-, -, hexplained⟩ := hexecutes
  obtain ⟨-, hschema, hanswers⟩ := hexplained.result r rfl
  refine ⟨r.rows, hanswers, fun rows' h => h.unique hanswers, ?_⟩
  rw [← hschema]

/-- The numbers above one of a list, each with the greater ones of another list. -/
def ascending : Plan :=
  ((((((((Plan.empty.addNode
    (.values [⟨"n", .int⟩] [.row [.int 1], .row [.int 2], .row [.int 3]])).addNode
    (.filter (.call .greater [.inputRef 0, .literal (.int 1)]))).addNode
    (.values [⟨"m", .int⟩] [.row [.int 2], .row [.int 3]])).addNode
    (.join (.call .less [.inputRef 0, .inputRef 1]))).tryEdge 1 0).1.tryEdge 3 1).1.tryEdge 3 2).1)

def ascendingAssembly : Assembly :=
  ⟨[⟨0, .values [.row [.int 1], .row [.int 2], .row [.int 3]], [], 0⟩,
    ⟨1, .filter ⟨.call .greater [.inputRef 0, .literal (.int 1)],
      .compare .greater (.fetch 0) (.constant (.int 1))⟩, [0], 1⟩,
    ⟨2, .values [.row [.int 2], .row [.int 3]], [], 2⟩,
    ⟨3, .join ⟨.call .less [.inputRef 0, .inputRef 1], .compare .less (.fetch 0) (.fetch 1)⟩,
      [1, 2], 3⟩], 3, [⟨"n", .int⟩, ⟨"m", .int⟩]⟩

/-- All four operators and the caller take turns until the join has sent its only row, while the
list has ended and the filter has a row for the join that nobody has taken. -/
def ascendingRun : List Event :=
  proceeding [0, 1, 2, 3] ++ [.caller false] ++
    proceeding [0, 1, 2, 3, 0, 1, 2, 3, 0, 1, 2, 3, 0, 1, 2, 3, 0, 1, 2, 3, 0, 1] ++
    [.worker 0 2 .dropSink] ++ proceeding [3, 1, 2, 3, 0, 1, 3] ++ [.worker 0 0 .dropSink] ++
    proceeding [1, 3]

/-- The row is read and the operators come to their ends. -/
def ascendingEnd : List Event :=
  [.caller false] ++ proceeding [0, 1, 3] ++ [.caller false] ++ proceeding [1, 3, 1, 3, 1, 3] ++
    [.worker 0 1 (.dropSource 0)] ++ proceeding [3] ++ [.worker 0 1 .dropSink] ++
    proceeding [3] ++ [.caller false] ++ proceeding [1] ++
    [.worker 0 3 (.dropSource 1), .caller false, .worker 0 3 (.dropSource 2), .caller false,
      .worker 0 3 .dropSink, .caller false] ++ proceeding [3] ++
    [.caller false, .caller false, .caller false, .caller false]

/-- What the numbers yield. -/
theorem ascending_answers : ascending.Answers (.empty "") [[.int 2, .int 3]] := by
  have hnumbers : ascending.Yields (.empty "") 0 [[.int 1], [.int 2], [.int 3]] := .values rfl rfl rfl
  have habove : ascending.Yields (.empty "") 1 [[.int 2], [.int 3]] := .filter rfl rfl rfl hnumbers rfl
  have hothers : ascending.Yields (.empty "") 2 [[.int 2], [.int 3]] := .values rfl rfl rfl
  exact ⟨3, rfl, .join rfl rfl rfl habove hothers rfl⟩

theorem ascending_readsRows : ascending.ReadsRows (.empty "") := by
  intro root n op _ _ hnode
  have hall : ∀ node ∈ ascending.graph.nodes, .endOfStream ∉ node.data.stored (.empty "") := by
    decide
  obtain ⟨node, hn, rfl⟩ := Option.map_eq_some_iff.mp hnode
  exact hall node (List.mem_of_getElem? hn)

/-- The answer that is found when all of them take turns. -/
theorem execute_answers_plan_of_ascending :
    ∃ (a : Assembly) (e : Executor) (rows : List Row),
      ascending.assemble (.empty "") = .ok a ∧
      ((new.configure a).begin .execute).after (ascendingRun ++ ascendingEnd) = some e ∧
      ascending.Answers (.empty "") rows ∧ rows = [[.int 2, .int 3]] ∧
      e.activity = .idle (.result ⟨a.schema, rows⟩) := by
  have ha : ascending.assemble (.empty "") = .ok ascendingAssembly := rfl
  have hvalues : ¬ ascending.LacksValue (.empty "") := fun ⟨root, d, hroot, hd⟩ =>
    ascending_answers.not_crashes ⟨root, _, hroot, hd⟩
  have hall : (((new.configure ascendingAssembly).begin .execute).after
      (ascendingRun ++ ascendingEnd)).map Executor.activity =
      some (.idle (.result ⟨[⟨"n", .int⟩, ⟨"m", .int⟩], [[.int 2, .int 3]]⟩)) := rfl
  obtain ⟨e, hrun, hans⟩ := Option.map_eq_some_iff.mp hall
  obtain ⟨rows, hanswers, -, hresult⟩ := execute_answers_plan new_atRest ha hvalues
    ascending_readsRows hrun (by decide) hans
  exact ⟨_, e, rows, ha, hrun, hanswers, hanswers.unique ascending_answers,
    hans.trans (congrArg Activity.idle hresult)⟩

/-- Between the two parts of the run rows stand in the channels between the operators. -/
example : (((new.configure ascendingAssembly).begin .execute).after ascendingRun).map (fun e =>
      e.queries.map fun query => query.network.channels.map Channel.slot) =
    some [[some .endOfStream, some (.row [.int 3]), none, some (.row [.int 2, .int 3])]] :=
  rfl

/-- A plan that holds a closing mark for a row. -/
def storedMark : Plan :=
  Plan.empty.addNode (.values [] [.endOfStream])

def storedMarkAssembly : Assembly :=
  ⟨[⟨0, .values [.endOfStream], [], 0⟩], 0, []⟩

def storedMarkRun : List Event :=
  proceeding [0] ++ [.caller false, .worker 0 0 .dropSink, .caller false] ++ proceeding [0] ++
    [.caller false, .caller false, .caller false, .caller false]

/-- **A closing mark that is stored as a row crashes the worker that is to send it**, though the
plan is accepted, no expression lacks a value and nobody cancels. -/
theorem execute_crashes_on_stored_mark :
    ∃ a e, storedMark.assemble (.empty "") = .ok a ∧ ¬ storedMark.LacksValue (.empty "") ∧
      ((new.configure a).begin .execute).after storedMarkRun = some e ∧
      Event.cancel 0 ∉ storedMarkRun ∧
      e.activity = .idle (.crashed (.sending .closingMark)) := by
  have hvalues : ¬ storedMark.LacksValue (.empty "") := by
    rintro ⟨root, d, hroot, hd⟩
    cases hroot
    cases hd with
    | filter hnode => cases hnode
    | project hnode => cases hnode
    | join hnode => cases hnode
    | input hin => cases hin
  have hall : (((new.configure storedMarkAssembly).begin .execute).after storedMarkRun).map
      Executor.activity = some (.idle (.crashed (.sending .closingMark))) := rfl
  obtain ⟨e, hrun, hans⟩ := Option.map_eq_some_iff.mp hall
  exact ⟨storedMarkAssembly, e, rfl, hvalues, hrun, by decide, hans⟩

end Executing

end Executor

end StreamQuery
