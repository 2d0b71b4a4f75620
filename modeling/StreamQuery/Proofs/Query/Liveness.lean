/-
A query comes to an end.

Two things are needed for that.  While the caller is in a call, somebody can make a
step: if the caller waits for an item then a worker can, by the descent along empty
slots, and if it waits for a worker then the query was cancelled or its answer is
drained, so that every worker that is not done can go on.  And nobody can make steps
for ever: `Executor.rank` counts the steps that workers and caller may still make, and
every step makes it smaller.  Cancelling does not make it larger.

So without further calls and cancellations only finitely many steps follow, and when no
step follows the caller is in no call.
-/
import StreamQuery.Proofs.Query.Progress
import StreamQuery.Proofs.Query.Session
import StreamQuery.Proofs.Query.Work

namespace StreamQuery

namespace Executor

/-! ### The states of one query -/

/-- What may happen to an executor: an event, or a call when it is in none. -/
inductive Act where
  | event (event : Event)
  | call (r : Request)
deriving DecidableEq, Repr

/-- The executor after an act, if it can happen. -/
def act (e : Executor) : Act → Option Executor
  | .event event => e.step event
  | .call r =>
    match e.activity with
    | .idle _ => some (e.begin r)
    | _ => none

/-- The states that a query goes through which an executor is given. -/
inductive Session (e₀ : Executor) (a : Assembly) : Executor → Prop where
  | configured : Session e₀ a (e₀.configure a)
  | act {e e' : Executor} (α : Act) (hbefore : Session e₀ a e) (hact : e.act α = some e') :
      Session e₀ a e'

variable {e₀ e e' : Executor} {q : Nat} {p : Plan} {cat : Catalog} {a : Assembly}
  {n n' : Network} {event : Event}

theorem act_call {r : Request} (h : e.act (.call r) = some e') : e' = e.begin r := by
  unfold Executor.act at h
  simp only at h
  split at h
  · cases h
    rfl
  · simp at h

theorem Serves.act (h : e.Serves q a n) {α : Act} (hact : e.act α = some e') :
    ∃ n', e'.Serves q a n' := by
  cases α with
  | event event =>
      obtain ⟨n', htick⟩ := step_tick h hact
      exact ⟨n', htick.serves h⟩
  | call r =>
      obtain rfl := act_call hact
      exact h.call r

theorem Session.serves (hrest : e₀.AtRest) (ha : p.assemble cat = .ok a)
    (h : Session e₀ a e) : ∃ n, e.Serves e₀.queries.length a n := by
  induction h with
  | configured => exact ⟨_, serves_configure hrest ha⟩
  | act α hbefore hact ih =>
      obtain ⟨n, hn⟩ := ih
      exact hn.act hact

/-! ### Somebody can make a step -/

/-- A worker of a started query makes a step. -/
theorem worker_steps {query : Query} (hstarted : q ∈ e.started)
    (hquery : e.queries[q]? = some query) {k : Nat} (hmoves : query.network.Moves k) :
    ∃ m e', e.step (.worker q k m) = some e' := by
  obtain ⟨m, n', hstep⟩ := hmoves
  refine ⟨m, e.setNetwork q n', ?_⟩
  unfold step
  simp only [hstarted, if_true, hquery, Option.bind_eq_bind, Option.bind_some, hstep]

/-- A caller that reads goes on unless it waits for an empty slot. -/
theorem read_steps {query : Query} {c : Channel} {waiting : Bool} (houtput : e.output = some q)
    (hquery : e.queries[q]? = some query)
    (hc : query.network.channels[query.output]? = some c)
    (hcaller : ∀ giveUp, e.stepCaller giveUp = e.stepRead waiting giveUp) :
    (∃ e', e.step (.caller false) = some e') ∨ c.slot = none ∧ c.producer = true := by
  have hread : e.step (.caller false) = e.stepRead waiting false := hcaller false
  rw [hread]
  unfold stepRead
  rw [houtput, Option.bind_eq_bind, Option.bind_some, hquery, Option.bind_eq_bind,
    Option.bind_some]
  simp only [hc, Option.bind_eq_bind, Option.bind_some, Bool.false_eq_true, if_false]
  cases waiting with
  | true =>
      cases htake : c.take? with
      | some result => exact .inl ⟨_, rfl⟩
      | none => exact .inr (Channel.take?_eq_none htake)
  | false =>
      refine .inl ?_
      simp only [Bool.false_eq_true, if_false]
      split <;> exact ⟨_, rfl⟩

/-- A caller that waits for a worker goes on when that is done. -/
theorem join_steps {query : Query} {w : Worker} {k : Nat} {o : Outcome} {p : Purpose}
    {before : Bool} {left : List (Nat × Nat)} {j : Joined}
    (hact : e.activity = .joining p before ((q, k) :: left) j)
    (hquery : e.queries[q]? = some query) (hw : query.network.workers[k]? = some w)
    (ho : w.life = .done o) : ∃ e', e.step (.caller false) = some e' := by
  have houtcome : e.outcome? q k = some o := by
    unfold outcome?
    rw [hquery, Option.bind_eq_bind, Option.bind_some, Option.bind_eq_bind, hw,
      Option.bind_some, ho]
    rfl
  refine ⟨{ e with activity := .joining p before left (j.add o) }, ?_⟩
  simp only [step, stepCaller, hact, houtcome, Bool.false_eq_true, if_false, Option.map_some]

/-- **While the caller is in a call, a worker or the caller can make a step.** -/
theorem Serves.progress (h : e.Serves q a n) (hbusy : ∀ last, e.activity ≠ .idle last) :
    ∃ event e', (∀ q', event ≠ .cancel q') ∧ e.step event = some e' := by
  have hattends := h.attends
  have hreading : ∀ {waiting : Bool}, e.started = [q] →
      (∀ giveUp, e.stepCaller giveUp = e.stepRead waiting giveUp) →
      ∃ event e', (∀ q', event ≠ .cancel q') ∧ e.step event = some e' := by
    intro waiting hstarted hcaller
    obtain ⟨c, hc⟩ := h.sound.channel_of_root
    rcases read_steps (h.output_of_started hstarted) h.query hc hcaller with
      ⟨e', he'⟩ | ⟨hslot, hproducer⟩
    · exact ⟨.caller false, e', by simp, he'⟩
    · obtain ⟨k, hmoves⟩ := Network.moves_of_awaited h.sound hc hslot hproducer
      obtain ⟨m, e', he'⟩ := worker_steps (by simp [hstarted]) h.query hmoves
      exact ⟨.worker q k m, e', by simp, he'⟩
  have hcalling : e.stepCaller false ≠ none →
      ∃ event e', (∀ q', event ≠ .cancel q') ∧ e.step event = some e' := by
    intro hsome
    obtain ⟨e', he'⟩ := Option.ne_none_iff_exists'.mp hsome
    exact ⟨.caller false, e', by simp, he'⟩
  cases hact : e.activity with
  | idle last => exact absurd hact (hbusy last)
  | reading waiting =>
      rw [hact] at hattends
      exact hreading hattends.1 fun giveUp => by unfold stepCaller; rw [hact]
  | collecting rows waiting =>
      rw [hact] at hattends
      exact hreading hattends.1 fun giveUp => by unfold stepCaller; rw [hact]
  | stopping p => exact hcalling (by simp [stepCaller, hact])
  | draining p before => exact hcalling (by simp [stepCaller, hact])
  | joining p before left j =>
      rw [hact] at hattends
      obtain ⟨m, hjoins⟩ := hattends
      cases left with
      | nil => exact hcalling (by simp [stepCaller, hact])
      | cons entry left =>
          obtain ⟨q', k⟩ := entry
          have hmem : (q', k) ∈ e.startedWorkers := by
            refine List.mem_of_mem_drop (i := m) ?_
            rw [← hjoins.left_eq]
            exact List.mem_cons_self
          obtain ⟨hstarted, rfl, rfl, -⟩ := h.next_joined hjoins
          rw [h.startedWorkers_eq, if_pos hstarted] at hmem
          have hk : k < n.workers.length := by simpa using hmem
          have hw : n.workers[k]? = some n.workers[k] := List.getElem?_eq_getElem hk
          by_cases hdone : ∃ o, n.workers[k].life = .done o
          · obtain ⟨o, ho⟩ := hdone
            obtain ⟨e', he'⟩ := join_steps hact h.query hw ho
            exact ⟨.caller false, e', by simp, he'⟩
          · have hlife : ∀ o, n.workers[k].life ≠ .done o := fun o ho => hdone ⟨o, ho⟩
            have hmoves : n.Moves k := by
              rcases hjoins.ends hstarted with hcancelled | ⟨c, hc, hf⟩
              · exact Network.moves_of_cancelled h.sound hcancelled hw hlife
              · exact Network.moves_of_closed h.sound hc (.inl hf) hw hlife
            obtain ⟨mv, e', he'⟩ := worker_steps (by simp [hstarted]) h.query hmoves
            exact ⟨_, e', by simp, he'⟩

/-! ### Nobody can make steps for ever -/

/-- How many steps the caller may still make in its call. -/
def callRank (n : Network) (output : Nat) : Activity → Nat
  | .idle _ => 0
  | .reading waiting => if waiting then 1 else 2
  | .collecting _ waiting =>
    2 * n.coming output + n.workers.length + 5 + (if waiting then 0 else 1)
  | .stopping _ => n.workers.length + 4
  | .draining _ _ => n.workers.length + 3
  | .joining _ _ left _ => left.length + 1

/-- How many steps the workers and the caller may still make. -/
def rank (e : Executor) (n : Network) (output : Nat) : Nat :=
  n.work + callRank n output e.activity

theorem callRank_le {output : Nat} (hcoming : n'.coming output ≤ n.coming output)
    (hlength : n'.workers.length = n.workers.length) (act : Activity) :
    callRank n' output act ≤ callRank n output act := by
  cases act with
  | collecting rows waiting => simp only [callRank]; omega
  | stopping p => simp only [callRank]; omega
  | draining p before => simp only [callRank]; omega
  | _ => exact Nat.le_refl _

theorem work_cancel_le (h : n.Sound a.output) : n.cancel.coming a.output ≤ n.coming a.output ∧
    n.cancel.work ≤ n.work := by
  obtain ⟨hcoming, hwork⟩ := Network.work_le_of_same h.toWired (h.withCancelled true).toWired
    rfl fun _ => Nat.le_refl _
  exact ⟨hcoming _, hwork⟩

theorem rank_begun {act : Activity} {output : Nat} (hreads : act.reads? = some false) :
    callRank n output act.begun < callRank n output act := by
  rcases Activity.reads_cases hreads with rfl | ⟨rows, rfl⟩
  · simp [callRank, Activity.begun]
  · simp [callRank, Activity.begun]

/-- A read that is answered brings the caller nearer to the end of its call, if it took a row out of
the answer or leads to no further read. -/
theorem rank_afterRead {act : Activity} {output : Nat} {waiting : Bool}
    {r : Except ChannelError Item} (hreads : act.reads? = some waiting)
    (hlength : n'.workers.length = n.workers.length)
    (hrow : ∀ row, r = .ok (.row row) → n'.coming output < n.coming output) :
    callRank n' output (act.afterRead r) < callRank n output act := by
  rcases Activity.reads_cases hreads with rfl | ⟨rows, rfl⟩
  · have hidle : callRank n' output ((Activity.reading waiting).afterRead r) = 0 := by
      rcases r with err | (row | _) <;> rfl
    rw [hidle]
    cases waiting <;> simp [callRank]
  · rcases r with err | (row | _)
    · simp only [Activity.afterRead, callRank]
      omega
    · have hlt := hrow row rfl
      simp only [Activity.afterRead, callRank, Bool.false_eq_true, if_false]
      omega
    · simp only [Activity.afterRead, callRank]
      omega

/-- **Every event but a cancellation leaves fewer steps to make**, and a cancellation not more. -/
theorem Tick.rank_lt (htick : Tick e q a n event e' n') (h : e.Serves q a n) :
    e'.rank n' a.output ≤ e.rank n a.output ∧
      ((∀ q', event ≠ .cancel q') → e'.rank n' a.output < e.rank n a.output) := by
  have hstrict : e'.rank n' a.output < e.rank n a.output →
      e'.rank n' a.output ≤ e.rank n a.output ∧
        ((∀ q', event ≠ .cancel q') → e'.rank n' a.output < e.rank n a.output) :=
    fun hlt => ⟨Nat.le_of_lt hlt, fun _ => hlt⟩
  unfold rank at *
  cases htick with
  | worker hstarted hw hstep hshift =>
      refine hstrict ?_
      have hwork := hstep.work_lt h.sound hw
      have hcall := callRank_le (hstep.coming_le h.sound hw a.output) hstep.workers_length
        e.activity
      rw [hshift.activity]
      omega
  | cancel hevent hshift =>
      obtain ⟨hcoming, hwork⟩ := work_cancel_le h.sound
      have hcall := callRank_le hcoming rfl e.activity
      rw [hshift.activity]
      exact ⟨by omega, fun hno => absurd hevent (hno q)⟩
  | elsewhere hevent hshift =>
      rw [hshift.activity]
      exact ⟨Nat.le_refl _, fun hno => absurd hevent (hno _)⟩
  | wait hreads hc hopen hshift =>
      refine hstrict ?_
      rw [hshift.activity]
      exact Nat.add_lt_add_left (rank_begun hreads) _
  | @take c item hreads hc hslot hshift =>
      refine hstrict ?_
      have hsound := h.sound.caller_took hc hslot
      have hslots := Network.inSlot_setChannel hc { c with slot := none, finished := item.isEnd }
      obtain ⟨hcoming, hwork⟩ := Network.work_le_of_same h.sound.toWired hsound.toWired rfl
        fun i => by rw [hslots]; split <;> simp
      have hless := Network.coming_lt_of_emptied h.sound.toWired hsound.toWired rfl
        (fun i _ => hcoming i) ((hslots _).trans (if_pos rfl)) (Network.inSlot_of_full hc hslot)
      rw [hshift.activity]
      exact Nat.add_lt_add_of_le_of_lt hwork (rank_afterRead hreads rfl fun _ _ => hless)
  | again hreads hdrained hshift =>
      refine hstrict ?_
      rw [hshift.activity]
      refine Nat.add_lt_add_left (rank_afterRead hreads rfl ?_) _
      intro row hrow
      simp at hrow
  | fail hreads hwhy hshift =>
      refine hstrict ?_
      rw [hshift.activity]
      refine Nat.add_lt_add_left (rank_afterRead hreads rfl ?_) _
      intro row hrow
      simp at hrow
  | stop hact hshift =>
      refine hstrict ?_
      rw [hshift.activity, hact]
      simp only [callRank]
      omega
  | @drain p before n' hact hn hshift =>
      refine hstrict ?_
      have hwork : n'.work ≤ n.work := by
        rcases hn with ⟨rfl, -⟩ | ⟨rfl, -⟩
        · exact Nat.le_refl _
        · exact (work_cancel_le h.sound).2
      have hleft : e.startedWorkers.length ≤ n.workers.length := by
        rw [h.startedWorkers_eq]
        split <;> simp
      rw [hshift.activity, hact]
      simp only [callRank]
      omega
  | join hact ho hshift =>
      refine hstrict ?_
      rw [hshift.activity, hact]
      simp only [callRank, List.length_cons]
      omega
  | @finish p before j n' hact hworkers hslots hsound hsame hquery hschema hhandle hconfigured
      houtput hstarted hanswer =>
      refine hstrict ?_
      obtain ⟨-, hwork⟩ := Network.work_le_of_same h.sound.toWired (hsound h.sound).toWired hworkers
        fun i => Nat.le_of_eq (Network.inSlot_congr (hslots i))
      rw [hanswer, hact]
      simp only [callRank, List.length_nil]
      omega

/-- Without calls and cancellations no run goes on for ever. -/
theorem no_infinite_run {σ : Nat → Executor} {α : Nat → Act}
    (hserves : ∃ n, (σ 0).Serves q a n) (hrun : ∀ i, (σ i).act (α i) = some (σ (i + 1)))
    (hquiet : ∃ N, ∀ i ≥ N, ∃ event, α i = .event event ∧ ∀ q', event ≠ .cancel q') : False := by
  have hall : ∀ i, ∃ n, (σ i).Serves q a n := by
    intro i
    induction i with
    | zero => exact hserves
    | succ i ih =>
        obtain ⟨n, hn⟩ := ih
        exact hn.act (hrun i)
  obtain ⟨N, hquiet⟩ := hquiet
  -- each step from the last disturbance on lowers the rank
  have hlower : ∀ m i, i ≥ N → ∀ n, (σ i).Serves q a n → (σ i).rank n a.output ≠ m := by
    intro m
    induction m using Nat.strong_induction_on with
    | _ m ih =>
        intro i hi n hn hrank
        obtain ⟨event, hevent, hcalm⟩ := hquiet i hi
        have hstep := hrun i
        rw [hevent] at hstep
        obtain ⟨n', htick⟩ := step_tick hn hstep
        have hlt := (htick.rank_lt hn).2 hcalm
        rw [hrank] at hlt
        exact ih _ hlt (i + 1) (by omega) n' (htick.serves hn) rfl
  obtain ⟨n, hn⟩ := hall N
  exact hlower _ N (Nat.le_refl N) n hn rfl

/-! ### What closing leaves behind -/

/-- The caller is in a call that joins all workers before it ends, or has come to its end. -/
def Closes (e : Executor) : Activity → Prop
  | .reading _ => False
  | .idle _ => e.started = []
  | _ => True

theorem Tick.closes (htick : Tick e q a n event e' n') (h : e.Closes e.activity) :
    e'.Closes e'.activity := by
  have hkept : e.Shifts e' q a n' e.activity → e'.Closes e'.activity := by
    intro hshift
    rw [hshift.activity]
    cases hact : e.activity with
    | idle last =>
        rw [hact] at h
        exact hshift.started.trans h
    | reading waiting => rw [hact] at h; exact h.elim
    | _ => trivial
  have hread : ∀ {waiting : Bool}, e.activity.reads? = some waiting →
      ∃ rows, e.activity = .collecting rows waiting := by
    intro waiting hreads
    rcases Activity.reads_cases hreads with hact | hact
    · rw [hact] at h
      exact h.elim
    · exact hact
  have hanswered : ∀ {waiting : Bool} {r : Except ChannelError Item},
      e.activity.reads? = some waiting → e'.Closes (e.activity.afterRead r) := by
    intro waiting r hreads
    obtain ⟨rows, hact⟩ := hread hreads
    rw [hact]
    rcases r with err | (row | _) <;> trivial
  cases htick with
  | worker _ _ _ hshift => exact hkept hshift
  | cancel _ hshift => exact hkept hshift
  | elsewhere _ hshift => exact hkept hshift
  | wait hreads _ _ hshift =>
      obtain ⟨rows, hact⟩ := hread hreads
      rw [hshift.activity, hact]
      trivial
  | take hreads _ _ hshift => rw [hshift.activity]; exact hanswered hreads
  | again hreads _ hshift => rw [hshift.activity]; exact hanswered hreads
  | fail hreads _ hshift => rw [hshift.activity]; exact hanswered hreads
  | stop _ hshift => rw [hshift.activity]; trivial
  | drain _ _ hshift => rw [hshift.activity]; trivial
  | join _ _ hshift => rw [hshift.activity]; trivial
  | finish _ _ _ _ _ _ _ _ _ _ hstarted hanswer => rw [hanswer]; exact hstarted

/-- Closing, and executing a query that is configured, joins all workers. -/
theorem Serves.closes_call (h : e.Serves q a n) {r : Request}
    (hr : r = .close ∨ r = .execute ∧ e.configured = some q) :
    ∃ n', (e.begin r).Serves q a n' ∧ (e.begin r).Closes (e.begin r).activity := by
  rcases hr with rfl | ⟨rfl, hconfigured⟩
  · obtain ⟨n', hn'⟩ := h.call .close
    have hact : (e.begin .close).activity = .stopping .close := by
      unfold begin
      simp only [h.handle]
    rw [hact]
    exact ⟨n', hn', trivial⟩
  · obtain ⟨hserves, hact, -⟩ := h.execute hconfigured
    rw [hact]
    exact ⟨n, hserves, trivial⟩

/-- **A query never gets stuck.** An executor at rest is given a query; whatever is asked of it,
whenever somebody cancels and whatever the workers do, in every state the query goes through:
while the caller is in a call, a worker or the caller can make a step; with finitely many calls
and cancellations no run goes on for ever; and when closing or executing has come to its end, no
worker is left to be joined, and all workers are done if they were started. -/
theorem query_never_stuck {e₀ : Executor} {p : Plan} {cat : Catalog} {a : Assembly}
    (hrest : e₀.AtRest) (ha : p.assemble cat = .ok a) :
    (∀ e, Session e₀ a e → (∀ last, e.activity ≠ .idle last) →
      ∃ event e', (∀ q, event ≠ .cancel q) ∧ e.step event = some e') ∧
    (∀ (σ : Nat → Executor) (α : Nat → Act), Session e₀ a (σ 0) →
      (∀ i, (σ i).act (α i) = some (σ (i + 1))) →
      ¬ ∃ N, ∀ i ≥ N, ∃ event, α i = .event event ∧ ∀ q, event ≠ .cancel q) ∧
    ∀ e r e₁ events e' ans, Session e₀ a e →
      (r = .close ∨ r = .execute ∧ e.configured = some e₀.queries.length) →
      e.act (.call r) = some e₁ → e₁.after events = some e' → e'.activity = .idle ans →
      e'.started = [] ∧ ∃ n, e'.queries[e₀.queries.length]? = some ⟨n, a.output⟩ ∧
        (e'.configured = none → n.AllDone) := by
  refine ⟨?_, ?_, ?_⟩
  · intro e hsession hbusy
    obtain ⟨n, hn⟩ := hsession.serves hrest ha
    exact hn.progress hbusy
  · intro σ α hsession hrun hquiet
    exact no_infinite_run (hsession.serves hrest ha) hrun hquiet
  · intro e r e₁ events e' ans hsession hr hcall hrun hans
    obtain ⟨n, hn⟩ := hsession.serves hrest ha
    obtain ⟨n₁, hserves, hcloses⟩ := hn.closes_call hr
    have hbegin : e₁ = e.begin r := by
      unfold Executor.act at hcall
      simp only at hcall
      split at hcall
      · cases hcall
        rfl
      · simp at hcall
    rw [← hbegin] at hserves hcloses
    obtain ⟨n', hn', hclosed⟩ := hserves.run (P := fun e _ => e.Closes e.activity) hcloses
      (fun event _ _ _ _ _ _ h htick => htick.closes h) hrun
    rw [hans] at hclosed
    refine ⟨hclosed, n', hn'.query, ?_⟩
    intro hconfigured
    cases hn'.phase with
    | configured hc _ _ _ => rw [hconfigured] at hc; cases hc
    | running _ _ hs _ => rw [hclosed] at hs; cases hs
    | ended _ _ _ hdone => exact hdone

/-- A union of two operations that hold one row each. -/
def rowAndRow : Plan :=
  (((((Plan.empty.addNode (.values [] [.row []])).addNode (.values [] [.row []])).addNode
    .union).tryEdge 2 0).1.tryEdge 2 1).1

def rowAndRowAssembly : Assembly :=
  ⟨[⟨0, .values [.row []], [], 0⟩, ⟨1, .values [.row []], [], 1⟩, ⟨2, .union, [0, 1], 2⟩], 2, []⟩

theorem query_never_stuck_union :
    ∃ a, rowAndRow.assemble (.empty "") = .ok a ∧
      ∀ e, Session new a e → (∀ last, e.activity ≠ .idle last) →
        ∃ event e', (∀ q, event ≠ .cancel q) ∧ e.step event = some e' := by
  have ha : rowAndRow.assemble (.empty "") = .ok rowAndRowAssembly := rfl
  exact ⟨rowAndRowAssembly, ha, (query_never_stuck new_atRest ha).1⟩

end Executor

end StreamQuery
