/-
An executor that serves one query.

An executor at rest, in no call and without started queries, is given a query.  From
then on the query is configured, running or ended: it starts to run when a call starts
it, and it has ended when a call has joined all its workers.  `Serves` says where
executor and query are at any time.  Whoever may cancel, and whatever the caller asks,
an executor that serves a query goes on serving it.

`Tick` says once everything that one event can do: a worker makes a step, somebody
cancels, or the caller goes on with the call it is in.
-/
import StreamQuery.Proofs.Query.Step
import StreamQuery.Query.Executor

namespace StreamQuery

/-- All workers are done. -/
def Network.AllDone (n : Network) : Prop :=
  ∀ (k : Nat) (w : Worker), n.workers[k]? = some w → ∃ o, w.life = .done o

/-- The caller has taken the closing mark out of a channel. -/
def Network.Drained (n : Network) (i : Nat) : Prop :=
  ∃ c, n.channels[i]? = some c ∧ c.finished = true

/-- What is learned from the first workers when they are joined. -/
def Network.joined (n : Network) (m : Nat) : Executor.Joined :=
  ((n.workers.take m).filterMap fun w => w.life.outcome?).foldl Executor.Joined.add .none

namespace Executor

/-! ### What a call is at -/

namespace Activity

/-- Whether a call reads, and if so, whether it waits. -/
def reads? : Activity → Option Bool
  | .reading waiting => some waiting
  | .collecting _ waiting => some waiting
  | _ => none

/-- A call that has begun to read. -/
def begun : Activity → Activity
  | .reading _ => .reading true
  | .collecting rows _ => .collecting rows true
  | act => act

/-- A call whose read was answered. -/
def afterRead : Activity → Except ChannelError Item → Activity
  | .reading _, .ok (.row row) => .idle (.next (some row))
  | .reading _, .ok .endOfStream => .idle (.next none)
  | .reading _, .error err => .idle (.failed (.channel err))
  | .collecting rows _, .ok (.row row) => .collecting (row :: rows) false
  | .collecting rows _, .ok .endOfStream => .stopping (.execute (.ok rows.reverse))
  | .collecting _ _, .error err => .stopping (.execute (.error err))
  | act, _ => act

theorem reads_cases {act : Activity} {waiting : Bool} (h : act.reads? = some waiting) :
    act = .reading waiting ∨ ∃ rows, act = .collecting rows waiting := by
  cases act with
  | reading b =>
      cases h
      exact .inl rfl
  | collecting rows b =>
      cases h
      exact .inr ⟨rows, rfl⟩
  | _ => cases h

end Activity

theorem answered_eq (e : Executor) (r : Except ChannelError Item) :
    e.answered r = { e with activity := e.activity.afterRead r } := by
  unfold answered Activity.afterRead finish
  split <;> simp_all

theorem waiting_eq (e : Executor) : e.waiting = { e with activity := e.activity.begun } := by
  unfold waiting Activity.begun
  split <;> simp_all

/-! ### Where executor and query are -/

/-- Where a query is in its life. -/
inductive Phase (e : Executor) (q : Nat) (a : Assembly) (n : Network) : Prop where
  /-- No worker has moved. -/
  | configured (hconfigured : e.configured = some q) (houtput : e.output = none)
      (hstarted : e.started = []) (hfresh : ∃ b, n = { Network.ofAssembly a with cancelled := b })
  /-- The caller holds its half of the answer. -/
  | running (hconfigured : e.configured = none) (houtput : e.output = some q)
      (hstarted : e.started = [q])
      (hheard : ∀ c, n.channels[a.output]? = some c → c.consumer = true)
  | ended (hconfigured : e.configured = none) (houtput : e.output = none)
      (hstarted : e.started = []) (hdone : n.AllDone)

/-- The workers that are still to be joined are those behind the first `m`. -/
structure Joins (e : Executor) (q : Nat) (a : Assembly) (n : Network) (left : List (Nat × Nat))
    (j : Joined) (m : Nat) : Prop where
  left_eq : left = (e.startedWorkers).drop m
  joined_eq : e.started = [q] → j = n.joined m
  done : e.started = [q] → ∀ (k : Nat) (w : Worker), k < m → n.workers[k]? = some w →
    ∃ o, w.life = .done o
  /-- The workers will all come to an end. -/
  ends : e.started = [q] → n.cancelled = true ∨ n.Drained a.output

/-- What a call that the caller is in has come to. -/
def Attends (e : Executor) (q : Nat) (a : Assembly) (n : Network) : Activity → Prop
  | .reading waiting | .collecting _ waiting =>
    e.started = [q] ∧ (waiting = true → ∀ c, n.channels[a.output]? = some c → c.finished = false)
  | .joining _ _ left j => ∃ m, e.Joins q a n left j m
  | _ => True

/-- An executor serves a query: `n` is its network. -/
structure Serves (e : Executor) (q : Nat) (a : Assembly) (n : Network) : Prop where
  query : e.queries[q]? = some ⟨n, a.output⟩
  schema : e.schema = some a.schema
  handle : e.handle = some q
  sound : n.Sound a.output
  phase : e.Phase q a n
  attends : e.Attends q a n e.activity

/-- The workers to be joined are those of the one query, if it runs. -/
theorem startedWorkers_of_query {e : Executor} {q : Nat} {query : Query}
    (hq : e.queries[q]? = some query) (hs : e.started = [] ∨ e.started = [q]) : e.startedWorkers
      = if e.started = [q] then (List.range query.network.workers.length).map fun k => (q, k)
        else [] := by
  unfold startedWorkers
  rcases hs with hs | hs
  · rw [hs, if_neg (by simp)]
    rfl
  · rw [hs, if_pos rfl, List.flatMap_cons, hq]
    simp

namespace Serves

variable {e : Executor} {q : Nat} {a : Assembly} {n : Network}

theorem started_cases (h : e.Serves q a n) : e.started = [] ∨ e.started = [q] := by
  cases h.phase with
  | configured _ _ hstarted _ => exact .inl hstarted
  | running _ _ hstarted _ => exact .inr hstarted
  | ended _ _ hstarted _ => exact .inl hstarted

theorem output_of_started (h : e.Serves q a n) (hstarted : e.started = [q]) :
    e.output = some q := by
  cases h.phase with
  | configured _ _ hs _ => rw [hs] at hstarted; cases hstarted
  | running _ houtput _ _ => exact houtput
  | ended _ _ hs _ => rw [hs] at hstarted; cases hstarted

theorem heard_of_started (h : e.Serves q a n) (hstarted : e.started = [q]) :
    ∀ c, n.channels[a.output]? = some c → c.consumer = true := by
  cases h.phase with
  | configured _ _ hs _ => rw [hs] at hstarted; cases hstarted
  | running _ _ _ hheard => exact hheard
  | ended _ _ hs _ => rw [hs] at hstarted; cases hstarted

theorem startedWorkers_eq (h : e.Serves q a n) : e.startedWorkers
    = if e.started = [q] then (List.range n.workers.length).map fun k => (q, k) else [] :=
  startedWorkers_of_query h.query h.started_cases

end Serves

/-! ### Everything that one event can do -/

/-- Nothing has changed but the query's network and what the caller is at. -/
structure Shifts (e e' : Executor) (q : Nat) (a : Assembly) (n' : Network) (act : Activity) :
    Prop where
  query : e'.queries[q]? = some ⟨n', a.output⟩
  schema : e'.schema = e.schema
  handle : e'.handle = e.handle
  configured : e'.configured = e.configured
  output : e'.output = e.output
  started : e'.started = e.started
  activity : e'.activity = act

/-- What one event does to an executor and the query that it serves. -/
inductive Tick (e : Executor) (q : Nat) (a : Assembly) (n : Network) (event : Event)
    (e' : Executor) : Network → Prop where
  | worker {k : Nat} {w : Worker} {n' : Network} (hstarted : e.started = [q])
      (hw : n.workers[k]? = some w) (hstep : Network.Step n k w n')
      (hshift : e.Shifts e' q a n' e.activity)
      (hmove : ∃ m, event = .worker q k m ∧ n.step k m = some n') : Tick e q a n event e' n'
  | cancel (hevent : event = .cancel q) (hshift : e.Shifts e' q a n.cancel e.activity) :
      Tick e q a n event e' n.cancel
  /-- Somebody cancels an earlier query. -/
  | elsewhere {q' : Nat} (hevent : event = .cancel q') (hshift : e.Shifts e' q a n e.activity) :
      Tick e q a n event e' n
  /-- The caller begins to wait for an item. -/
  | wait {c : Channel} (hreads : e.activity.reads? = some false)
      (hc : n.channels[a.output]? = some c) (hopen : c.finished = false)
      (hshift : e.Shifts e' q a n e.activity.begun) : Tick e q a n event e' n
  | take {c : Channel} {item : Item} (hreads : e.activity.reads? = some true)
      (hc : n.channels[a.output]? = some c) (hslot : c.slot = some item)
      (hshift : e.Shifts e' q a
        (n.setChannel a.output { c with slot := none, finished := item.isEnd })
        (e.activity.afterRead (.ok item))) :
      Tick e q a n event e' (n.setChannel a.output { c with slot := none, finished := item.isEnd })
  /-- The caller asks for an item behind the closing mark. -/
  | again (hreads : e.activity.reads? = some false) (hdrained : n.Drained a.output)
      (hshift : e.Shifts e' q a n (e.activity.afterRead (.ok .endOfStream))) :
      Tick e q a n event e' n
  | fail {waiting : Bool} {err : ChannelError} (hreads : e.activity.reads? = some waiting)
      (hwhy : n.cancelled = true ∨ (waiting = true ∧ ∃ c, n.channels[a.output]? = some c ∧
        c.slot = none ∧ c.producer = false))
      (hshift : e.Shifts e' q a n (e.activity.afterRead (.error err)))
      (herr : err = .cancelled ∨ (event = .caller false ∧ waiting = true ∧
        ∃ c, n.channels[a.output]? = some c ∧ c.slot = none ∧ c.producer = false)) :
      Tick e q a n event e' n
  | stop {p : Purpose} {before : Bool} (hact : e.activity = .stopping p)
      (hshift : e.Shifts e' q a n (.draining p before)) : Tick e q a n event e' n
  | drain {p : Purpose} {before : Bool} {n' : Network} (hact : e.activity = .draining p before)
      (hn : n' = n ∧ (e.output = none ∨ n.Drained a.output) ∨
        n' = n.cancel ∧ ¬ n.Drained a.output)
      (hshift : e.Shifts e' q a n' (.joining p before e.startedWorkers .none)) :
      Tick e q a n event e' n'
  | join {p : Purpose} {before : Bool} {q' k : Nat} {left : List (Nat × Nat)} {j : Joined}
      {o : Outcome} (hact : e.activity = .joining p before ((q', k) :: left) j)
      (ho : e.outcome? q' k = some o)
      (hshift : e.Shifts e' q a n (.joining p before left (j.add o))) : Tick e q a n event e' n
  /-- The caller has joined all workers; its call comes to its end. -/
  | finish {p : Purpose} {before : Bool} {j : Joined} {n' : Network}
      (hact : e.activity = .joining p before [] j)
      (hworkers : n'.workers = n.workers)
      (hslots : ∀ i : Nat, n'.channels[i]?.map Channel.slot = n.channels[i]?.map Channel.slot)
      (hsound : n.Sound a.output → n'.Sound a.output)
      (hsame : e.output = none → n' = n)
      (hquery : e'.queries[q]? = some ⟨n', a.output⟩) (hschema : e'.schema = e.schema)
      (hhandle : e'.handle = e.handle) (hconfigured : e'.configured = e.configured)
      (houtput : e'.output = none) (hstarted : e'.started = [])
      (hanswer : e'.activity = .idle (e.joinedResult p before j))
      (hcancelled : n'.cancelled = n.cancelled) : Tick e q a n event e' n'

section Inversion

variable {e e' : Executor} {q : Nat} {a : Assembly} {n : Network}

theorem setNetwork_query (hq : e.queries[q]? = some ⟨n, a.output⟩) (n' : Network) :
    (e.setNetwork q n').queries[q]? = some ⟨n', a.output⟩ := by
  unfold setNetwork
  simp [hq]

/-- A step of reading from the answer. -/
theorem stepRead_tick (h : e.Serves q a n) {waiting giveUp : Bool}
    (hreads : e.activity.reads? = some waiting) (houtput : e.output = some q)
    (hstep : e.stepRead waiting giveUp = some e') :
    ∃ n', Tick e q a n (.caller giveUp) e' n' := by
  obtain ⟨c, hc⟩ := h.sound.channel_of_root
  unfold stepRead at hstep
  rw [houtput, Option.bind_eq_bind, Option.bind_some, h.query, Option.bind_eq_bind,
    Option.bind_some] at hstep
  simp only [hc, Option.bind_eq_bind, Option.bind_some] at hstep
  cases waiting with
  | true =>
      simp only [if_true] at hstep
      cases giveUp with
      | true =>
          simp only [if_true] at hstep
          split at hstep
          · rename_i hcancelled
            cases hstep
            rw [answered_eq]
            exact ⟨n, .fail hreads (.inl hcancelled) ⟨h.query, rfl, rfl, rfl, rfl, rfl, rfl⟩
              (.inl rfl)⟩
          · simp at hstep
      | false =>
          simp only [Bool.false_eq_true, if_false] at hstep
          obtain ⟨⟨r, c'⟩, htake, hn⟩ := Option.bind_eq_some_iff.mp hstep
          cases hn
          rw [answered_eq]
          rcases Channel.take?_cases htake with ⟨hslot, hgone, rfl, rfl⟩ | ⟨item, hslot, rfl, rfl⟩
          · refine ⟨n, @Tick.fail _ _ _ _ _ _ true .producerStopped hreads
              (.inr ⟨rfl, c', hc, hslot, hgone⟩) ⟨?_, rfl, rfl, rfl, rfl, rfl, rfl⟩
              (.inr ⟨rfl, rfl, c', hc, hslot, hgone⟩)⟩
            rw [Network.setChannel_self hc]
            exact setNetwork_query h.query n
          · exact ⟨_, .take hreads hc hslot
              ⟨setNetwork_query h.query _, rfl, rfl, rfl, rfl, rfl, rfl⟩⟩
  | false =>
      simp only [Bool.false_eq_true, if_false] at hstep
      cases giveUp with
      | true =>
          simp only [if_true] at hstep
          simp at hstep
      | false =>
          simp only [Bool.false_eq_true, if_false] at hstep
          rcases c.beginTake_cases n.cancelled with
            ⟨hf, hb⟩ | ⟨-, hcancelled, hb⟩ | ⟨hopen, -, hb⟩
          · simp only [hb] at hstep
            cases hstep
            rw [answered_eq]
            exact ⟨n, .again hreads ⟨c, hc, hf⟩ ⟨h.query, rfl, rfl, rfl, rfl, rfl, rfl⟩⟩
          · simp only [hb] at hstep
            cases hstep
            rw [answered_eq]
            exact ⟨n, .fail hreads (.inl hcancelled) ⟨h.query, rfl, rfl, rfl, rfl, rfl, rfl⟩
              (.inl rfl)⟩
          · simp only [hb] at hstep
            cases hstep
            rw [waiting_eq]
            exact ⟨n, .wait hreads hc hopen ⟨h.query, rfl, rfl, rfl, rfl, rfl, rfl⟩⟩

theorem cancel_kept (e : Executor) : (e.cancel.schema = e.schema ∧ e.cancel.handle = e.handle ∧
    e.cancel.configured = e.configured ∧ e.cancel.output = e.output) ∧
    e.cancel.started = e.started := by
  unfold cancel
  split <;> exact ⟨⟨rfl, rfl, rfl, rfl⟩, rfl⟩

theorem cancel_query (h : e.Serves q a n) :
    e.cancel.queries[q]? = some ⟨n.cancel, a.output⟩ := by
  unfold cancel onNetwork
  rw [h.handle]
  simp [h.query]

/-- Whether the answer has come to its end. -/
theorem isDrained_cases (h : e.Serves q a n) (hdrained : e.isDrained = true) :
    e.output = none ∨ n.Drained a.output := by
  rcases h.started_cases with hs | hs
  · cases h.phase with
    | configured _ houtput _ _ => exact .inl houtput
    | running _ _ hstarted _ => rw [hs] at hstarted; cases hstarted
    | ended _ houtput _ _ => exact .inl houtput
  · obtain ⟨c, hc⟩ := h.sound.channel_of_root
    unfold isDrained at hdrained
    simp only [h.output_of_started hs, h.query, hc] at hdrained
    exact .inr ⟨c, hc, hdrained⟩

theorem not_drained (h : e.Serves q a n) (hdrained : ¬ e.isDrained = true) :
    ¬ n.Drained a.output := by
  rintro ⟨c, hc, hf⟩
  refine hdrained ?_
  unfold isDrained
  rcases h.started_cases with hs | hs
  · cases h.phase with
    | configured _ houtput _ _ => rw [houtput]
    | running _ _ hstarted _ => rw [hs] at hstarted; cases hstarted
    | ended _ houtput _ _ => rw [houtput]
  · simp only [h.output_of_started hs, h.query, hc]
    exact hf

theorem channels_dropOutput {n : Network} {i : Nat} {c : Channel} (hc : n.channels[i]? = some c) :
    ({ n with channels := n.channels.modify i Channel.dropConsumer } : Network)
      = n.setChannel i c.dropConsumer := by
  unfold Network.setChannel
  rw [List.modify_eq_set_getElem?, hc]
  rfl

theorem dropOutput_of_none (houtput : e.output = none) : e.dropOutput = e := by
  unfold dropOutput
  rw [houtput]

theorem dropOutput_tick (h : e.Serves q a n) :
    ∃ n' : Network, n'.workers = n.workers ∧
      (∀ i : Nat, n'.channels[i]?.map Channel.slot = n.channels[i]?.map Channel.slot) ∧
      (n.Sound a.output → n'.Sound a.output) ∧
      (e.output = none → n' = n) ∧ e.dropOutput.queries[q]? = some ⟨n', a.output⟩ ∧
      e.dropOutput.schema = e.schema ∧ e.dropOutput.handle = e.handle ∧
      e.dropOutput.configured = e.configured ∧ e.dropOutput.output = none ∧
      n'.cancelled = n.cancelled := by
  cases h.phase with
  | configured hconfigured houtput _ _ =>
      rw [dropOutput_of_none houtput]
      exact ⟨n, rfl, fun _ => rfl, id, fun _ => rfl, h.query, rfl, rfl, rfl, houtput, rfl⟩
  | ended hconfigured houtput _ _ =>
      rw [dropOutput_of_none houtput]
      exact ⟨n, rfl, fun _ => rfl, id, fun _ => rfl, h.query, rfl, rfl, rfl, houtput, rfl⟩
  | running hconfigured houtput _ _ =>
      obtain ⟨c, hc⟩ := h.sound.channel_of_root
      refine ⟨n.setChannel a.output c.dropConsumer, rfl, ?_,
        fun hsound => hsound.root_step hc rfl Iff.rfl (hsound.spent _ c hc), ?_, ?_, ?_⟩
      · intro i
        rw [Network.channels_setChannel hc]
        by_cases hi : i = a.output
        · rw [if_pos hi, hi, hc]
          rfl
        · rw [if_neg hi]
      · intro hnone
        rw [houtput] at hnone
        simp at hnone
      · unfold dropOutput
        rw [houtput, ← channels_dropOutput hc]
        simp [h.query]
      · unfold dropOutput
        rw [houtput]
        exact ⟨rfl, rfl, rfl, rfl, rfl⟩

theorem stepCaller_tick (h : e.Serves q a n) {giveUp : Bool}
    (hstep : e.stepCaller giveUp = some e') :
    ∃ n', Tick e q a n (.caller giveUp) e' n' := by
  have hattends := h.attends
  unfold stepCaller at hstep
  split at hstep
  · simp at hstep
  · rename_i waiting hact
    rw [hact] at hattends
    exact stepRead_tick h (by rw [hact]; rfl) (h.output_of_started hattends.1) hstep
  · rename_i rows waiting hact
    rw [hact] at hattends
    exact stepRead_tick h (by rw [hact]; rfl) (h.output_of_started hattends.1) hstep
  · rename_i p hact
    split at hstep
    · simp at hstep
    · cases hstep
      exact ⟨n, .stop hact ⟨h.query, rfl, rfl, rfl, rfl, rfl, rfl⟩⟩
  · rename_i p before hact
    split at hstep
    · simp at hstep
    · cases hstep
      by_cases hdrained : e.isDrained = true
      · rw [if_pos hdrained]
        exact ⟨n, .drain hact (.inl ⟨rfl, isDrained_cases h hdrained⟩)
          ⟨h.query, rfl, rfl, rfl, rfl, rfl, rfl⟩⟩
      · rw [if_neg hdrained]
        have hworkers : e.cancel.startedWorkers = e.startedWorkers := by
          obtain ⟨-, hstarted⟩ := cancel_kept e
          rw [h.startedWorkers_eq,
            startedWorkers_of_query (cancel_query h) (by rw [hstarted]; exact h.started_cases),
            hstarted]
          rfl
        rw [hworkers]
        obtain ⟨⟨hschema, hhandle, hconfigured, houtput⟩, hstarted⟩ := cancel_kept e
        exact ⟨n.cancel, .drain hact (.inr ⟨rfl, not_drained h hdrained⟩)
          ⟨cancel_query h, hschema, hhandle, hconfigured, houtput, hstarted, rfl⟩⟩
  · rename_i p before q' k left j hact
    split at hstep
    · simp at hstep
    · obtain ⟨o, ho, rfl⟩ := Option.map_eq_some_iff.mp hstep
      exact ⟨n, .join hact ho ⟨h.query, rfl, rfl, rfl, rfl, rfl, rfl⟩⟩
  · rename_i p before j hact
    split at hstep
    · simp at hstep
    · cases hstep
      obtain ⟨n', hworkers, hslots, hsound, hsame, hquery, hschema, hhandle, hconfigured,
        houtput, hcancelled⟩ := dropOutput_tick h
      exact ⟨n', .finish hact hworkers hslots hsound hsame hquery hschema hhandle hconfigured
        houtput rfl rfl hcancelled⟩

/-- **Every event is one of these.** -/
theorem step_tick (h : e.Serves q a n) {event : Event} (hstep : e.step event = some e') :
    ∃ n', Tick e q a n event e' n' := by
  cases event with
  | worker q' k m =>
      simp only [step] at hstep
      split at hstep
      · rename_i hmem
        rcases h.started_cases with hs | hs
        · rw [hs] at hmem
          simp at hmem
        · rw [hs] at hmem
          obtain rfl := List.mem_singleton.mp hmem
          rw [h.query, Option.bind_eq_bind, Option.bind_some] at hstep
          obtain ⟨n', hn', hstep'⟩ := Option.bind_eq_some_iff.mp hstep
          cases hstep'
          obtain ⟨w, hw, hworker⟩ := Network.step_cases h.sound hn'
          exact ⟨n', .worker hs hw hworker
            ⟨setNetwork_query h.query n', rfl, rfl, rfl, rfl, rfl, rfl⟩ ⟨m, rfl, hn'⟩⟩
      · simp at hstep
  | caller giveUp => exact stepCaller_tick h hstep
  | cancel q' =>
      simp only [step] at hstep
      split at hstep
      · cases hstep
        by_cases hq : q' = q
        · subst hq
          refine ⟨n.cancel, .cancel rfl ⟨?_, rfl, rfl, rfl, rfl, rfl, rfl⟩⟩
          unfold onNetwork
          simp [h.query]
        · refine ⟨n, .elsewhere rfl ⟨?_, rfl, rfl, rfl, rfl, rfl, rfl⟩⟩
          unfold onNetwork
          rw [List.getElem?_modify_ne _ _ hq]
          exact h.query
      · simp at hstep

end Inversion

end Executor

end StreamQuery
