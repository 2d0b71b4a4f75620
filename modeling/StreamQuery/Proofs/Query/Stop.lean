/-
Whether an executor can be stopped.

Closing an executor, or shutting it down, waits for the workers of all started queries, but it
cancels one query at most: the one that was configured last.  A worker of another query comes to
its end because nobody reads the answer of its query any more, so that the item it waits to put is
refused.  The one query of which this need not be so is the one whose answer the executor still
holds.  If another was configured after it, then nobody takes anything out of its answer, nobody
lets go of it until all workers are joined, and nobody cancels it: the executor is overshadowed,
and it waits for ever.

This is the only way in which it can be stuck.  While a call is under way somebody can make a step
or the executor is overshadowed, and only finitely many steps can be made; an executor that can
cancel the query it reads is never overshadowed.
-/
import StreamQuery.Proofs.Query.Several

namespace StreamQuery

namespace Network

/-- What is read to its end is not blocked. -/
theorem Blocked.not_drained {n : Network} {output : Nat} (h : n.Blocked output)
    (hs : n.Sound output) : ¬ n.Drained output := by
  obtain ⟨-, w, s, c, -, -, -, hc, -, hslot⟩ := h
  rintro ⟨d, hd, hfinished⟩
  rw [hc] at hd
  cases hd
  exact hslot (hs.spent output c hc hfinished)

/-- What nobody reads is not blocked. -/
theorem Blocked.not_unheard {n : Network} {output : Nat} (h : n.Blocked output) :
    ¬ n.Unheard output := by
  obtain ⟨-, w, s, c, -, -, -, hc, hconsumer, -⟩ := h
  intro hunheard
  rw [hunheard c hc] at hconsumer
  cases hconsumer

end Network

namespace Executor

variable {e e₀ e' : Executor} {event : Event} {q : Nat}

/-- The executor holds the answer of a query, but it would cancel another; and a worker of that
query waits for somebody to take the answer. -/
def Overshadowed (e : Executor) : Prop :=
  ∃ q query, e.output = some q ∧ e.handle ≠ some q ∧ e.queries[q]? = some query ∧
    query.network.Blocked query.output

/-- The query whose answer the executor holds is the one it would cancel, or it is cancelled or
read to its end already. -/
def Commands (e : Executor) : Prop :=
  ∀ q query, e.output = some q → e.queries[q]? = some query →
    e.handle = some q ∨ query.network.cancelled = true ∨ query.network.Drained query.output

/-! ### Somebody can make a step -/

/-- **While the caller is in a call, a worker or the caller can make a step**, or the executor is
overshadowed. -/
theorem Orderly.progress (h : e.Orderly) (hbusy : ∀ last, e.activity ≠ .idle last) :
    (∃ event e', (∀ q, event ≠ .cancel q) ∧ e.step event = some e') ∨ e.Overshadowed := by
  have hcaller : (∃ e', e.step (.caller false) = some e') →
      (∃ event e', (∀ q, event ≠ .cancel q) ∧ e.step event = some e') ∨ e.Overshadowed :=
    fun ⟨e', he'⟩ => .inl ⟨.caller false, e', by simp, he'⟩
  have hsteps : ∀ e', e.stepCaller false = some e' → ∃ e', e.step (.caller false) = some e' :=
    fun e' he' => ⟨e', he'⟩
  have hworker : ∀ {q query}, q ∈ e.started → e.queries[q]? = some query →
      (∃ k, query.network.Moves k) →
      (∃ event e', (∀ q, event ≠ .cancel q) ∧ e.step event = some e') ∨ e.Overshadowed := by
    rintro q query hstarted hquery ⟨k, hmoves⟩
    obtain ⟨m, e', he'⟩ := worker_steps hstarted hquery hmoves
    exact .inl ⟨.worker q k m, e', by simp, he'⟩
  have hreading : ∀ {waiting : Bool}, e.output ≠ none →
      (∀ giveUp, e.stepCaller giveUp = e.stepRead waiting giveUp) →
      (∃ event e', (∀ q, event ≠ .cancel q) ∧ e.step event = some e') ∨ e.Overshadowed := by
    intro waiting hread hstep
    obtain ⟨q, houtput⟩ := Option.ne_none_iff_exists'.mp hread
    have hstarted := h.output q houtput
    obtain ⟨query, hquery⟩ : ∃ query, e.queries[q]? = some query :=
      ⟨_, List.getElem?_eq_getElem (h.started q hstarted)⟩
    obtain ⟨c, hc⟩ := (h.sound q query hquery).channel_of_root
    rcases read_steps houtput hquery hc hstep with hgoes | ⟨hslot, hproducer⟩
    · exact hcaller hgoes
    · exact hworker hstarted hquery
        (Network.moves_of_awaited (h.sound q query hquery) hc hslot hproducer)
  have hattends := h.attends
  cases hact : e.activity with
  | idle last => exact absurd hact (hbusy last)
  | reading waiting =>
      rw [hact] at hattends
      exact hreading hattends fun giveUp => by unfold stepCaller; rw [hact]
  | collecting rows waiting =>
      rw [hact] at hattends
      exact hreading hattends fun giveUp => by unfold stepCaller; rw [hact]
  | stopping p => exact hcaller (hsteps _ (by unfold stepCaller; rw [hact]; rfl))
  | draining p before => exact hcaller (hsteps _ (by unfold stepCaller; rw [hact]; rfl))
  | joining p before left j =>
      rw [hact] at hattends
      cases left with
      | nil => exact hcaller (hsteps _ (by unfold stepCaller; rw [hact]; rfl))
      | cons entry left =>
          obtain ⟨q, k⟩ := entry
          obtain ⟨hstarted, query, w, hquery, hw⟩ :=
            mem_startedWorkers.mp (hattends.worker q k List.mem_cons_self)
          by_cases hdone : ∃ o, w.life = .done o
          · obtain ⟨o, ho⟩ := hdone
            exact hcaller (join_steps hact hquery hw ho)
          · have hsound := h.sound q query hquery
            rcases Network.moves_or_blocked hsound hw fun o ho => hdone ⟨o, ho⟩ with
              hmoves | hblocked
            · exact hworker hstarted hquery hmoves
            · right
              have hread : e.output = some q := by
                by_contra hnot
                exact hblocked.not_unheard (h.unheard q hstarted query hquery hnot)
              refine ⟨q, query, hread, fun hhandle => ?_, hquery, hblocked⟩
              rcases hattends.released q query hread hhandle hquery with hcancelled | hdrained
              · rw [hblocked.1] at hcancelled
                cases hcancelled
              · exact hblocked.not_drained hsound hdrained

/-- An executor that is overshadowed cannot cancel the query it reads. -/
theorem Commands.not_overshadowed (hc : e.Commands) (h : e.Orderly) : ¬ e.Overshadowed := by
  rintro ⟨q, query, hread, hhandle, hquery, hblocked⟩
  rcases hc q query hread hquery with hsame | hcancelled | hdrained
  · exact hhandle hsame
  · rw [hblocked.1] at hcancelled
    cases hcancelled
  · exact hblocked.not_drained (h.sound q query hquery) hdrained

theorem Commands.pass (h : e.Commands) (hp : e.Passes e') (hhandle : e'.handle = e.handle)
    (houtput : ∀ q, e'.output = some q → e.output = some q) : e'.Commands := by
  intro q query' hread hquery'
  obtain ⟨query, hquery, hout, hlater, -⟩ := hp.query hquery'
  rw [hout]
  exact (h q query (houtput q hread) hquery).imp (hhandle.trans ·)
    (Or.imp hlater.cancelled hlater.drained)

/-! ### What a turn leaves -/

/-- Whatever an event does, the queries grow older; the executor holds on to its numbers, or has
joined all workers. -/
theorem Turn.passes (hturn : e.Turn event e') (h : e.Orderly) : e.Passes e' ∧
    e'.handle = e.handle ∧ (∀ q, e'.output = some q → e.output = some q) := by
  cases hturn with
  | worker hstarted hquery hw hstep he =>
      subst he
      exact ⟨passes_worker h.sound hstarted hquery hw hstep, rfl, fun _ hq => hq⟩
  | cancel hevent he =>
      subst he
      exact ⟨passes_onCancel h.sound, rfl, fun _ hq => hq⟩
  | read hreads hp hsame hact => exact ⟨hp, hsame.handle, fun _ hq => hsame.output ▸ hq⟩
  | stop hact he =>
      subst he
      exact ⟨passes_self h.sound rfl, rfl, fun _ hq => hq⟩
  | drain hact he₁ he =>
      subst he
      rcases he₁ with ⟨rfl, -⟩ | rfl
      · exact ⟨passes_self h.sound rfl, rfl, fun _ hq => hq⟩
      · obtain ⟨hlength, hlater⟩ := passes_cancel h.sound
        exact ⟨⟨hlength, hlater⟩, (same_cancel e).handle, fun _ hq => (same_cancel e).output ▸ hq⟩
  | join hact ho he =>
      subst he
      exact ⟨passes_self h.sound rfl, rfl, fun _ hq => hq⟩
  | finish hact he =>
      subst he
      obtain ⟨⟨-, houtput, hhandle⟩, -, -⟩ := dropOutput_kept e
      obtain ⟨hlength, hlater⟩ := passes_dropOutput h.sound
      refine ⟨⟨hlength, hlater⟩, hhandle, fun q hq => ?_⟩
      have hread : e.dropOutput.output = some q := hq
      rw [houtput] at hread
      cases hread

/-- An executor that can cancel the query it reads goes on being able to. -/
theorem Turn.commands (hturn : e.Turn event e') (h : e.Orderly) (hcommands : e.Commands) :
    e'.Commands := by
  obtain ⟨hp, hhandle, houtput⟩ := hturn.passes h
  exact hcommands.pass hp hhandle houtput

/-! ### Nobody can make steps for ever -/

/-- The caller stops everything, or has done so. -/
def Stops (e : Executor) : Activity → Prop
  | .stopping _ | .draining _ _ | .joining _ _ _ _ => True
  | .idle _ => e.started = []
  | .reading _ | .collecting _ _ => False

/-- How many steps a caller that stops everything may still make. -/
def stoppingSteps (e : Executor) : Activity → Nat
  | .stopping _ => e.startedWorkers.length + 3
  | .draining _ _ => e.startedWorkers.length + 2
  | .joining _ _ left _ => left.length + 1
  | _ => 0

/-- How many steps the workers of each query may still make. -/
def works (e : Executor) : List Nat :=
  e.queries.map fun query => query.network.work

/-- How many steps the workers and a caller that stops everything may still make. -/
def stepsLeft (e : Executor) : Nat :=
  total e.works + e.stoppingSteps e.activity

/-- Queries that grow older have no more work. -/
theorem Passes.works_le (h : e.Passes e') : List.Forall₂ (· ≤ ·) e'.works e.works := by
  refine List.forall₂_iff_get.mpr ⟨by simp [works, h.length], ?_⟩
  intro i hi' hi
  have hlt : i < e.queries.length := by simpa [works] using hi
  have hlt' : i < e'.queries.length := by simpa [works] using hi'
  obtain ⟨query', hquery', -, hlater, -⟩ := h.later i _ (List.getElem?_eq_getElem hlt)
  obtain ⟨_, rfl⟩ := List.getElem?_eq_some_iff.mp hquery'
  simpa [works] using hlater.work

/-- Where the queries grow older and the caller is at what it was at, nothing is added. -/
theorem Passes.stepsLeft_le (h : e.Passes e') (hstarted : e'.started = e.started)
    (hact : e'.activity = e.activity) : e'.stepsLeft ≤ e.stepsLeft := by
  have hworks := Network.total_le_of_forall₂ h.works_le
  unfold stepsLeft stoppingSteps
  rw [h.startedWorkers hstarted, hact]
  omega

/-- **Every event but a cancellation leaves fewer steps to a caller that stops everything**, and a
cancellation not more. -/
theorem Turn.stepsLeft_lt (hturn : e.Turn event e') (h : e.Orderly)
    (hstops : e.Stops e.activity) : e'.stepsLeft ≤ e.stepsLeft ∧
      ((∀ q, event ≠ .cancel q) → e'.stepsLeft < e.stepsLeft) := by
  have hstrict : e'.stepsLeft < e.stepsLeft → e'.stepsLeft ≤ e.stepsLeft ∧
      ((∀ q, event ≠ .cancel q) → e'.stepsLeft < e.stepsLeft) :=
    fun hlt => ⟨Nat.le_of_lt hlt, fun _ => hlt⟩
  obtain ⟨hp, -, -⟩ := hturn.passes h
  have hworks := Network.total_le_of_forall₂ hp.works_le
  cases hturn with
  | @worker q k query w n' hstarted hquery hw hstep he =>
      subst he
      have hless : total (e.setNetwork q n').works < total e.works := by
        refine Network.total_lt_of_forall₂ (k := q) hp.works_le ?_ ?_
          (hstep.work_lt (h.sound q query hquery) hw)
        · simp [works, hquery]
        · simp [works, setNetwork, hquery]
      have hcaller := hp.startedWorkers rfl
      refine hstrict ?_
      unfold stepsLeft stoppingSteps
      rw [hcaller]
      exact Nat.add_lt_add_right hless _
  | @cancel q hevent he =>
      subst he
      exact ⟨hp.stepsLeft_le rfl rfl, fun hno => absurd hevent (hno q)⟩
  | read hreads hp hsame hact =>
      rcases Activity.reads_cases hreads with hreading | ⟨rows, hreading⟩
      · rw [hreading] at hstops
        exact hstops.elim
      · rw [hreading] at hstops
        exact hstops.elim
  | stop hact he =>
      subst he
      refine hstrict ?_
      unfold stepsLeft stoppingSteps
      rw [hact]
      exact Nat.lt_succ_self _
  | @drain p before e₁ hact he₁ he =>
      subst he
      refine hstrict ?_
      have hworkers : e₁.startedWorkers = e.startedWorkers := by
        rcases he₁ with ⟨rfl, -⟩ | rfl
        · rfl
        · exact (passes_cancel h.sound).startedWorkers (same_cancel e).started
      unfold stepsLeft
      refine Nat.add_lt_add_of_le_of_lt hworks ?_
      rw [hact]
      show e₁.startedWorkers.length + 1 < e.startedWorkers.length + 2
      rw [hworkers]
      exact Nat.lt_succ_self _
  | join hact ho he =>
      subst he
      refine hstrict ?_
      unfold stepsLeft stoppingSteps
      rw [hact]
      exact Nat.add_lt_add_left (Nat.lt_succ_self _) _
  | finish hact he =>
      subst he
      refine hstrict ?_
      unfold stepsLeft stoppingSteps
      rw [hact]
      exact Nat.lt_succ_of_le hworks

/-- A caller that stops everything goes on with that until it has done so. -/
theorem Turn.stops (hturn : e.Turn event e') (hstops : e.Stops e.activity) :
    e'.Stops e'.activity := by
  cases hturn with
  | worker hstarted hquery hw hstep he =>
      subst he
      show Stops _ e.activity
      cases hact : e.activity <;> rw [hact] at hstops <;> exact hstops
  | cancel hevent he =>
      subst he
      show Stops _ e.activity
      cases hact : e.activity <;> rw [hact] at hstops <;> exact hstops
  | read hreads hp hsame hact =>
      rcases Activity.reads_cases hreads with hreading | ⟨rows, hreading⟩
      · rw [hreading] at hstops
        exact hstops.elim
      · rw [hreading] at hstops
        exact hstops.elim
  | stop hact he => subst he; trivial
  | drain hact he₁ he => subst he; trivial
  | join hact ho he => subst he; trivial
  | finish hact he => subst he; exact rfl

/-- Either the workers that were started at some time have not been joined yet, or they are done. -/
def Ends (e₀ e : Executor) : Prop :=
  e.started = e₀.started ∨
    ∀ q ∈ e₀.started, ∀ query, e.queries[q]? = some query → query.network.AllDone

theorem Turn.ends (hturn : e.Turn event e') (h : e.Orderly) (hends : Ends e₀ e) : Ends e₀ e' := by
  obtain ⟨hp, -, -⟩ := hturn.passes h
  have hlater : (∀ q ∈ e₀.started, ∀ query, e.queries[q]? = some query →
      query.network.AllDone) → Ends e₀ e' := by
    refine fun hdone => .inr fun q hq query' hquery' => ?_
    obtain ⟨query, hquery, -, hlater, -⟩ := hp.query hquery'
    exact hlater.allDone (hdone q hq query hquery)
  rcases hends with hstarted | hdone
  · cases hturn with
    | worker _ _ _ _ he => subst he; exact .inl hstarted
    | cancel _ he => subst he; exact .inl hstarted
    | read _ _ hsame _ => exact .inl (hsame.started.trans hstarted)
    | stop _ he => subst he; exact .inl hstarted
    | drain _ he₁ he =>
        subst he
        rcases he₁ with ⟨rfl, -⟩ | rfl
        · exact .inl hstarted
        · exact .inl ((same_cancel e).started.trans hstarted)
    | join _ _ he => subst he; exact .inl hstarted
    | finish hact he =>
        exact hlater fun q hq query hquery => h.all_joined hact (hstarted ▸ hq) hquery
  · exact hlater hdone

/-! ### Runs -/

/-- What every event preserves while the queries are orderly, a run preserves. -/
theorem Orderly.run {P : Executor → Prop} {events : List Event} (h : e.Orderly) (hp : P e)
    (hstep : ∀ {event e e'}, e.Orderly → P e → e.Turn event e' → P e')
    (hrun : e.after events = some e') : e'.Orderly ∧ P e' := by
  refine after_keeps (P := fun e => e.Orderly ∧ P e) ⟨h, hp⟩ ?_ hrun
  rintro event - e e' ⟨h, hp⟩ he'
  have hturn := step_turn h he'
  exact ⟨hturn.orderly h, hstep h hp hturn⟩

/-- An executor that is asked to stop begins to, unless there is nothing to stop. -/
theorem Orderly.stops_begin (h : e.Orderly) {r : Request} (hr : r = .close ∨ r = .shutDown) :
    (e.begin r).Stops (e.begin r).activity ∧ (e.begin r).started = e.started ∧
      e.Passes (e.begin r) ∧ (e.begin r).handle = e.handle ∧ (e.begin r).output = e.output := by
  rcases hr with rfl | rfl
  · by_cases hhandle : e.handle = none
    · have hbegin : e.begin .close = e.finish .ok := by
        unfold Executor.begin
        simp only [hhandle]
      rw [hbegin]
      refine ⟨List.eq_nil_iff_forall_not_mem.mpr fun q hq => ?_, rfl, passes_self h.sound rfl,
        rfl, rfl⟩
      have hlt : q < e.queries.length := h.started q hq
      rw [h.handle hhandle] at hlt
      exact Nat.not_lt_zero q hlt
    · obtain ⟨q, hq⟩ := Option.ne_none_iff_exists'.mp hhandle
      have hbegin : e.begin .close = { e with activity := .stopping .close } := by
        unfold Executor.begin
        simp only [hq]
      rw [hbegin]
      exact ⟨trivial, rfl, passes_self h.sound rfl, rfl, rfl⟩
  · unfold Executor.begin
    simp only
    split
    · rename_i hempty
      exact ⟨List.isEmpty_iff.mp hempty, rfl, passes_self h.sound rfl, rfl, rfl⟩
    · obtain ⟨-, houtput, hhandle, hstarted⟩ := same_cancel e
      obtain ⟨hlength, hlater⟩ := passes_cancel h.sound
      exact ⟨trivial, hstarted, ⟨hlength, hlater⟩, hhandle, houtput⟩

theorem Used.after (h : Used e) {events : List Event} (hrun : e.after events = some e') : Used e' :=
  after_keeps h (fun event _ _ _ hused hstep => hused.act (.event event) hstep) hrun

/-- A caller that stops everything does not go on for ever, unless somebody cancels again and
again. -/
theorem no_infinite_stop {σ : Nat → Executor} {events : Nat → Event} (h : (σ 0).Orderly)
    (hstops : (σ 0).Stops (σ 0).activity)
    (hrun : ∀ i, (σ i).step (events i) = some (σ (i + 1))) :
    ¬ ∃ N, ∀ i ≥ N, ∀ q, events i ≠ .cancel q := by
  rintro ⟨N, hquiet⟩
  have hall : ∀ i, (σ i).Orderly ∧ (σ i).Stops (σ i).activity := by
    intro i
    induction i with
    | zero => exact ⟨h, hstops⟩
    | succ i ih =>
        obtain ⟨horderly, hstops⟩ := ih
        have hturn := step_turn horderly (hrun i)
        exact ⟨hturn.orderly horderly, hturn.stops hstops⟩
  -- each step from the last cancellation on leaves fewer
  have hlower : ∀ m i, i ≥ N → (σ i).stepsLeft ≠ m := by
    intro m
    induction m using Nat.strong_induction_on with
    | _ m ih =>
        intro i hi hleft
        obtain ⟨horderly, hstops⟩ := hall i
        have hless := ((step_turn horderly (hrun i)).stepsLeft_lt horderly hstops).2 (hquiet i hi)
        rw [hleft] at hless
        exact ih _ hless (i + 1) (by omega) rfl
  exact hlower _ N (Nat.le_refl N) rfl

/-- Cancelling the query that the executor reads frees it. -/
theorem Orderly.freed (h : e.Orderly) (hread : e.output = some q) :
    ∃ e', e.step (.cancel q) = some e' ∧ e'.Commands := by
  refine ⟨e.onNetwork q Network.cancel, ?_, ?_⟩
  · simp only [Executor.step, h.started q (h.output q hread), if_true]
  · intro q' query hread' hquery
    have hsame : some q = some q' := hread.symm.trans hread'
    cases hsame
    unfold onNetwork at hquery
    simp only [List.getElem?_modify, if_true] at hquery
    obtain ⟨_, -, rfl⟩ := Option.map_eq_some_iff.mp hquery
    exact .inr (.inl rfl)

/-- **An executor is stuck only if it is overshadowed.**

An executor is given queries of plans that can be run, in any order and whatever becomes of those
before, and it is closed or shut down.  In every state of that call, whatever the workers do and
whoever cancels, a worker or the caller can make a step, or the executor is overshadowed.  It is
never overshadowed if the query whose answer it holds is the one that it would cancel, or was
cancelled or read to its end, and from when that is so; cancelling that query makes it so.  Only
finitely many steps follow when nobody goes on cancelling.  And when the call has come to its end,
every worker of a query that was started is done, and of any other query no worker has moved or
all are done. -/
theorem stuck_only_if_overshadowed {e e₁ : Executor} {r : Request} (h : Used e)
    (hr : r = .close ∨ r = .shutDown) (hcall : e.act (.call r) = some e₁) :
    (∀ events e', e₁.after events = some e' → (∀ last, e'.activity ≠ .idle last) →
      (∃ event e'', (∀ q, event ≠ .cancel q) ∧ e'.step event = some e'') ∨ e'.Overshadowed) ∧
    (∀ events e' events' e'', e₁.after events = some e' → e.Commands ∨ e'.Commands →
      e'.after events' = some e'' → ¬ e''.Overshadowed) ∧
    (∀ events e' q, e₁.after events = some e' → e'.output = some q →
      ∃ e'', e'.step (.cancel q) = some e'' ∧ e''.Commands) ∧
    (∀ (σ : Nat → Executor) (events : Nat → Event), σ 0 = e₁ →
      (∀ i, (σ i).step (events i) = some (σ (i + 1))) →
      ¬ ∃ N, ∀ i ≥ N, ∀ q, events i ≠ .cancel q) ∧
    ∀ events e' ans, e₁.after events = some e' → e'.activity = .idle ans →
      e'.started = [] ∧
      (∀ q ∈ e.started, ∀ query, e'.queries[q]? = some query → query.network.AllDone) ∧
      ∀ query ∈ e'.queries, query.network.Untouched ∨ query.network.AllDone := by
  obtain rfl := act_call hcall
  have hused := h.act _ hcall
  have horderly : ∀ {events e'}, (e.begin r).after events = some e' → e'.Orderly :=
    fun hrun => (hused.after hrun).orderly
  obtain ⟨hstops, hstarted, hp, hhandle, houtput⟩ := h.orderly.stops_begin hr
  refine ⟨?_, ?_, ?_, ?_, ?_⟩
  · intro events e' hrun hbusy
    exact (horderly hrun).progress hbusy
  · intro events e' events' e'' hrun hcommands hrun'
    have hcommands' : e'.Commands := by
      rcases hcommands with hcommands | hcommands
      · have hbegin := hcommands.pass hp hhandle fun q hq => houtput ▸ hq
        exact (hused.orderly.run hbegin (fun h hc hturn => hturn.commands h hc) hrun).2
      · exact hcommands
    obtain ⟨horderly'', hcommands''⟩ :=
      (horderly hrun).run hcommands' (fun h hc hturn => hturn.commands h hc) hrun'
    exact hcommands''.not_overshadowed horderly''
  · intro events e' q hrun hread
    exact (horderly hrun).freed hread
  · intro σ events hfirst hrun
    exact no_infinite_stop (hfirst ▸ hused.orderly) (hfirst ▸ hstops) hrun
  · intro events e' ans hrun hidle
    obtain ⟨horderly', hstops', hends⟩ := hused.orderly.run
      (P := fun e' => e'.Stops e'.activity ∧ Ends e e') ⟨hstops, .inl hstarted⟩
      (fun h hboth hturn => ⟨hturn.stops hboth.1, hturn.ends h hboth.2⟩) hrun
    rw [hidle] at hstops'
    have hnone : e'.started = [] := hstops'
    refine ⟨hnone, ?_, ?_⟩
    · rcases hends with hsame | hdone
      · intro q hq
        rw [← hsame, hnone] at hq
        exact absurd hq List.not_mem_nil
      · exact hdone
    · intro query hquery
      obtain ⟨q, hq⟩ := List.mem_iff_getElem?.mp hquery
      exact horderly'.resting q query hq (by rw [hnone]; exact List.not_mem_nil)

/-! ### A query that is configured while another runs -/

/-- Three rows of one column. -/
def threeRows : Plan :=
  Plan.empty.addNode (.values [⟨"a", .int⟩] [.row [.int 1], .row [.int 2], .row [.int 3]])

def threeRowsAssembly : Assembly :=
  ⟨[⟨0, .values [.row [.int 1], .row [.int 2], .row [.int 3]], [], 0⟩], 0, [⟨"a", .int⟩]⟩

theorem threeRows_assemble : threeRows.assemble (.empty "") = .ok threeRowsAssembly := rfl

/-- The one worker has sent a row, which nobody has taken, and waits to send the next. -/
def sendingNext : List Event :=
  [.worker 0 0 .proceed, .worker 0 0 .proceed, .worker 0 0 .proceed]

/-- The executor when that worker waits. -/
def awaitingReader : Executor where
  queries := [⟨⟨false, [⟨some (.row [.int 1]), true, true, false⟩],
    [⟨[], 0, .working (.values [.row [.int 2], .row [.int 3]]) true⟩]⟩, 0⟩]
  configured := none
  output := some 0
  schema := some [⟨"a", .int⟩]
  handle := some 0
  started := [0]
  activity := .idle .ok

theorem awaitingReader_run :
    ((new.configure threeRowsAssembly).begin .start).after sendingNext = some awaitingReader :=
  rfl

theorem awaitingReader_used : Used awaitingReader := by
  have hconfigured : Used (new.configure threeRowsAssembly) :=
    .configure .new rfl threeRows_assemble
  exact (hconfigured.act (.call .start) rfl).after awaitingReader_run

/-- Three rows of which nobody has taken one: the executor reads from the query that it can cancel,
so that closing it comes to its end. -/
theorem stuck_only_if_overshadowed_of_three_rows :
    ∃ e₁, awaitingReader.act (.call .close) = some e₁ ∧
      ∀ events e', e₁.after events = some e' → (∀ last, e'.activity ≠ .idle last) →
        ∃ event e'', (∀ q, event ≠ .cancel q) ∧ e'.step event = some e'' := by
  have hcall : awaitingReader.act (.call .close) = some (awaitingReader.begin .close) := rfl
  have hcommands : awaitingReader.Commands := fun q query hread _ => .inl hread
  obtain ⟨hprogress, hnever, -, -, -⟩ :=
    stuck_only_if_overshadowed awaitingReader_used (.inl rfl) hcall
  refine ⟨_, hcall, fun events e' hrun hbusy => ?_⟩
  exact (hprogress events e' hrun hbusy).resolve_right
    (hnever events e' [] e' hrun (.inl hcommands) rfl)

/-- The executor when the same plan is configured again and the executor is then closed: it waits
for the worker of the first query, and has cancelled the second. -/
def waitingForEver : Executor where
  queries := [⟨⟨false, [⟨some (.row [.int 1]), true, true, false⟩],
      [⟨[], 0, .working (.values [.row [.int 2], .row [.int 3]]) true⟩]⟩, 0⟩,
    ⟨⟨true, [⟨none, true, true, false⟩],
      [⟨[], 0, .working (.values [.row [.int 1], .row [.int 2], .row [.int 3]]) false⟩]⟩, 0⟩]
  configured := some 1
  output := some 0
  schema := some [⟨"a", .int⟩]
  handle := some 1
  started := [0]
  activity := .joining .close false [(0, 0)] .none

/-- Nobody can make a step but those who cancel. -/
theorem waitingForEver_stuck (hcalm : ∀ q, event ≠ .cancel q) :
    waitingForEver.step event = none := by
  cases event with
  | cancel q => exact absurd rfl (hcalm q)
  | caller giveUp => cases giveUp <;> rfl
  | worker q k m =>
      cases q with
      | succ q => simp [step, waitingForEver]
      | zero =>
          cases k with
          | succ k => rfl
          | zero => cases m <;> rfl

/-- **Closing may wait for ever.**  A query is started and nobody reads from it; another is
configured, and the executor is closed.  Then it waits for the worker of the first query, and no
worker and nobody else can make a step. -/
theorem close_may_be_stuck :
    ∃ a e e₁ e', threeRows.assemble (.empty "") = .ok a ∧
      ((new.configure a).begin .start).after sendingNext = some e ∧ e.activity = .idle .ok ∧
      (e.configure a).act (.call .close) = some e₁ ∧
      e₁.after [.caller false, .caller false] = some e' ∧
      e'.activity = .joining .close false [(0, 0)] .none ∧
      ∀ event, (∀ q, event ≠ .cancel q) → e'.step event = none :=
  ⟨threeRowsAssembly, awaitingReader, _, waitingForEver, threeRows_assemble, awaitingReader_run,
    rfl, rfl, rfl, rfl, fun _ => waitingForEver_stuck⟩

end Executor

end StreamQuery
