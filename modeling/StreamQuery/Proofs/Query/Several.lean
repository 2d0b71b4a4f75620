/-
An executor that is given one query after another.

A query may be configured, and even started, while an earlier one still runs.  The executor then
holds three numbers that need not be the same: the query that was configured last, which is the
one that it cancels, the query whose answer it reads, and those whose workers it has not joined.

`Network.Later` is what a network keeps whatever its workers and the caller do with it, and
`Orderly` says how the numbers of an executor stand to its queries: it reads from a query that
was started, it has let go of the answers of the other started queries, and the workers that a
call still has to join are workers of started queries.  `Turn` says once everything that one event
can do to an executor that is orderly.
-/
import StreamQuery.Proofs.Query.Liveness

namespace StreamQuery

namespace Network

/-- Nobody is left who takes anything out of a channel. -/
def Unheard (n : Network) (i : Nat) : Prop :=
  ∀ c, n.channels[i]? = some c → c.consumer = false

/-- No worker has moved. -/
def Untouched (n : Network) : Prop :=
  ∀ (k : Nat) (w : Worker), n.workers[k]? = some w →
    ∃ op : Operator, w.life = .working op.stage false

/-- A network is `n'` some time after it was `n`. -/
structure Later (n n' : Network) (output : Nat) : Prop where
  sound : n'.Sound output
  length : n'.workers.length = n.workers.length
  done : ∀ (k : Nat) (w : Worker) (o : Outcome), n.workers[k]? = some w → w.life = .done o →
    n'.workers[k]? = some w
  cancelled : n.cancelled = true → n'.cancelled = true
  drained : n.Drained output → n'.Drained output
  unheard : n.Unheard output → n'.Unheard output
  work : n'.work ≤ n.work

section Later

variable {n n' : Network} {output k : Nat} {w : Worker} {c c' : Channel}

theorem Lasts.later (h : n.Lasts n' output) (hs : n.Sound output) (hs' : n'.Sound output)
    (hwork : n'.work ≤ n.work) : n.Later n' output where
  sound := hs'
  length := h.length
  done := h.done
  cancelled := h.cancelled
  drained hd := Executor.drained_of_lasts hd h
  unheard hu := by
    intro c' hc'
    obtain ⟨c, hc⟩ := hs.channel_of_root
    obtain ⟨c'', hc'', hconsumer, -⟩ := h.root c hc
    rw [hc'] at hc''
    cases hc''
    exact hconsumer.trans (hu c hc)
  work := hwork

theorem later_self (h : n.Sound output) : n.Later n output :=
  (Lasts.refl n output).later h h (Nat.le_refl _)

theorem Step.later (hstep : Step n k w n') (h : n.Sound output) (hw : n.workers[k]? = some w) :
    n.Later n' output :=
  (hstep.lasts h hw).later h (hstep.sound h hw) (Nat.le_of_lt (hstep.work_lt h hw))

theorem later_cancel (h : n.Sound output) : n.Later n.cancel output :=
  (lasts_cancel n output).later h (h.withCancelled true)
    (work_le_of_same h.toWired (h.withCancelled true).toWired rfl fun _ => Nat.le_refl _).2

/-- Nothing but the answer has changed, and that was not filled. -/
theorem later_root (h : n.Sound output) (hc : n.channels[output]? = some c)
    (hs : (n.setChannel output c').Sound output) (hslot : c'.slot ≠ none → c.slot ≠ none)
    (hfinished : c.finished = true → c'.finished = true)
    (hconsumer : c.consumer = false → c'.consumer = false) :
    n.Later (n.setChannel output c') output where
  sound := hs
  length := rfl
  done _ _ _ hw _ := hw
  cancelled hcancelled := hcancelled
  drained := by
    rintro ⟨d, hd, hf⟩
    rw [hc] at hd
    cases hd
    exact ⟨c', (channels_setChannel hc c' output).trans (if_pos rfl), hfinished hf⟩
  unheard hu := by
    intro d hd
    rw [channels_setChannel hc, if_pos rfl] at hd
    cases hd
    exact hconsumer (hu c hc)
  work := by
    refine (work_le_of_same h.toWired hs.toWired rfl fun i => ?_).2
    rw [inSlot_setChannel hc]
    by_cases hi : i = output
    · subst hi
      rw [if_pos rfl]
      unfold inSlot
      rw [hc]
      cases hslot' : c'.slot with
      | none => simp
      | some item =>
          obtain ⟨item', hitem'⟩ := Option.ne_none_iff_exists'.mp (hslot (by simp [hslot']))
          simp [hitem']
    · rw [if_neg hi]

/-- The caller takes an item out of the answer. -/
theorem later_take (h : n.Sound output) (hc : n.channels[output]? = some c) {item : Item}
    (hslot : c.slot = some item) :
    n.Later (n.setChannel output { c with slot := none, finished := item.isEnd }) output := by
  refine later_root h hc (h.caller_took hc hslot) (fun hfull => absurd rfl hfull) ?_ id
  intro hfinished
  rw [h.spent _ c hc hfinished] at hslot
  cases hslot

/-- The caller lets go of the answer. -/
theorem later_drop (h : n.Sound output) (hc : n.channels[output]? = some c) :
    n.Later (n.setChannel output c.dropConsumer) output :=
  later_root h hc (h.root_step hc rfl Iff.rfl (h.spent _ c hc)) id id fun _ => rfl

theorem Later.allDone (h : n.Later n' output) (hdone : n.AllDone) : n'.AllDone := by
  intro k w' hw'
  have hk : k < n.workers.length := h.length ▸ (List.getElem?_eq_some_iff.mp hw').1
  have hw : n.workers[k]? = some n.workers[k] := List.getElem?_eq_getElem hk
  obtain ⟨o, ho⟩ := hdone k _ hw
  rw [h.done k _ o hw ho] at hw'
  cases hw'
  exact ⟨o, ho⟩

end Later

end Network

namespace Executor

/-! ### Queries grow older -/

/-- Every query is there, some time later; the workers of those that are not started are as they
were. -/
structure Passes (e e' : Executor) : Prop where
  length : e'.queries.length = e.queries.length
  later : ∀ (q : Nat) (query : Query), e.queries[q]? = some query →
    ∃ query', e'.queries[q]? = some query' ∧ query'.output = query.output ∧
      query.network.Later query'.network query.output ∧
      (q ∉ e.started → query'.network.workers = query.network.workers)

/-- The numbers that an executor holds are the same. -/
structure Same (e e' : Executor) : Prop where
  configured : e'.configured = e.configured
  output : e'.output = e.output
  handle : e'.handle = e.handle
  started : e'.started = e.started

/-- Every query is a sound network. -/
def Sound (e : Executor) : Prop :=
  ∀ (q : Nat) (query : Query), e.queries[q]? = some query → query.network.Sound query.output

section Passing

variable {e e' : Executor} {q : Nat}

theorem Passes.query (h : e.Passes e') {query' : Query} (hq : e'.queries[q]? = some query') :
    ∃ query, e.queries[q]? = some query ∧ query'.output = query.output ∧
      query.network.Later query'.network query.output ∧
      (q ∉ e.started → query'.network.workers = query.network.workers) := by
  have hlt : q < e.queries.length := h.length ▸ (List.getElem?_eq_some_iff.mp hq).1
  have hquery : e.queries[q]? = some e.queries[q] := List.getElem?_eq_getElem hlt
  obtain ⟨query'', hq'', hrest⟩ := h.later q _ hquery
  rw [hq] at hq''
  cases hq''
  exact ⟨_, hquery, hrest⟩

theorem Passes.sound (h : e.Passes e') : e'.Sound := by
  intro q query' hq
  obtain ⟨query, -, hout, hlater, -⟩ := h.query hq
  rw [hout]
  exact hlater.sound

/-- One network has changed. -/
theorem passes_modify (hs : e.Sound) {f : Query → Network}
    (hqueries : e'.queries = e.queries.modify q fun query => { query with network := f query })
    (hf : ∀ query, e.queries[q]? = some query →
      query.network.Later (f query) query.output ∧
        (q ∉ e.started → (f query).workers = query.network.workers)) :
    e.Passes e' where
  length := by rw [hqueries, List.length_modify]
  later := by
    intro q' query hquery
    rw [hqueries, List.getElem?_modify, hquery]
    by_cases hq : q = q'
    · subst hq
      obtain ⟨hlater, hworkers⟩ := hf query hquery
      refine ⟨{ query with network := f query }, ?_, rfl, hlater, hworkers⟩
      simp
    · refine ⟨query, ?_, rfl, Network.later_self (hs q' query hquery), fun _ => rfl⟩
      simp [hq]

theorem passes_self (hs : e.Sound) (hqueries : e'.queries = e.queries) : e.Passes e' where
  length := by rw [hqueries]
  later q query hquery :=
    ⟨query, hqueries ▸ hquery, rfl, Network.later_self (hs q query hquery), fun _ => rfl⟩

/-- A worker of a started query has made a step. -/
theorem passes_worker (hs : e.Sound) {k : Nat} {query : Query} {w : Worker} {n' : Network}
    (hstarted : q ∈ e.started) (hquery : e.queries[q]? = some query)
    (hw : query.network.workers[k]? = some w) (hstep : Network.Step query.network k w n') :
    e.Passes (e.setNetwork q n') := by
  refine passes_modify (f := fun _ => n') hs rfl fun query' hquery' => ?_
  rw [hquery] at hquery'
  cases hquery'
  exact ⟨hstep.later (hs q query hquery) hw, fun hnot => absurd hstarted hnot⟩

/-- A query was cancelled. -/
theorem passes_onCancel (hs : e.Sound) : e.Passes (e.onNetwork q Network.cancel) :=
  passes_modify (f := fun query => query.network.cancel) hs rfl fun query hquery =>
    ⟨Network.later_cancel (hs q query hquery), fun _ => rfl⟩

theorem passes_cancel (hs : e.Sound) : e.Passes e.cancel := by
  unfold cancel
  split
  · exact passes_onCancel hs
  · exact passes_self hs rfl

theorem passes_dropOutput (hs : e.Sound) : e.Passes e.dropOutput := by
  unfold dropOutput
  split
  · exact passes_self hs rfl
  · refine passes_modify (f := fun query => { query.network with
      channels := query.network.channels.modify query.output Channel.dropConsumer }) hs rfl ?_
    intro query hquery
    have hsound := hs _ query hquery
    obtain ⟨c, hc⟩ := hsound.channel_of_root
    rw [channels_dropOutput hc]
    exact ⟨Network.later_drop hsound hc, fun _ => rfl⟩

/-- Nobody reads the answer that was let go. -/
theorem unheard_dropOutput (houtput : e.output = some q) {query' : Query}
    (hq : e.dropOutput.queries[q]? = some query') :
    query'.network.Unheard query'.output := by
  unfold dropOutput at hq
  simp only [houtput, List.getElem?_modify, if_true] at hq
  obtain ⟨query, -, rfl⟩ := Option.map_eq_some_iff.mp hq
  intro d hd
  simp only [List.getElem?_modify, if_true] at hd
  obtain ⟨c, -, rfl⟩ := Option.map_eq_some_iff.mp hd
  rfl

theorem dropOutput_kept (e : Executor) : (e.dropOutput.configured = e.configured ∧
    e.dropOutput.output = none ∧ e.dropOutput.handle = e.handle) ∧
    e.dropOutput.started = e.started ∧ e.dropOutput.activity = e.activity := by
  unfold dropOutput
  split
  · rename_i hnone
    exact ⟨⟨rfl, hnone, rfl⟩, rfl, rfl⟩
  · exact ⟨⟨rfl, rfl, rfl⟩, rfl, rfl⟩

theorem same_cancel (e : Executor) : e.Same e.cancel := by
  obtain ⟨⟨-, hhandle, hconfigured, houtput⟩, hstarted⟩ := cancel_kept e
  exact ⟨hconfigured, houtput, hhandle, hstarted⟩

theorem mem_startedWorkers {k : Nat} : (q, k) ∈ e.startedWorkers ↔
    q ∈ e.started ∧ ∃ query w, e.queries[q]? = some query ∧
      query.network.workers[k]? = some w := by
  unfold startedWorkers
  rw [List.mem_flatMap]
  constructor
  · rintro ⟨q', hq', hmem⟩
    cases hquery : e.queries[q']? with
    | none =>
        rw [hquery] at hmem
        exact absurd hmem List.not_mem_nil
    | some query =>
        rw [hquery] at hmem
        obtain ⟨k', hk', heq⟩ := List.mem_map.mp hmem
        cases heq
        exact ⟨hq', query, _, hquery, List.getElem?_eq_getElem (List.mem_range.mp hk')⟩
  · rintro ⟨hq, query, w, hquery, hw⟩
    refine ⟨q, hq, ?_⟩
    rw [hquery]
    exact List.mem_map.mpr ⟨k, List.mem_range.mpr (List.getElem?_eq_some_iff.mp hw).1, rfl⟩

/-- The workers to be joined are the same. -/
theorem Passes.startedWorkers (h : e.Passes e') (hstarted : e'.started = e.started) :
    e'.startedWorkers = e.startedWorkers := by
  unfold Executor.startedWorkers
  rw [hstarted]
  congr 1
  funext q
  cases hquery : e.queries[q]? with
  | some query =>
      obtain ⟨query', hquery', -, hlater, -⟩ := h.later q query hquery
      rw [hquery']
      simp only [hlater.length]
  | none =>
      have hnone : e'.queries[q]? = none := by
        rw [List.getElem?_eq_none_iff, h.length]
        exact List.getElem?_eq_none_iff.mp hquery
      rw [hnone]

end Passing

/-! ### The numbers that an executor holds -/

/-- A call still has to join these workers. -/
structure Awaits (e : Executor) (left : List (Nat × Nat)) : Prop where
  worker : ∀ q k, (q, k) ∈ left → (q, k) ∈ e.startedWorkers
  joined : ∀ q ∈ e.started, ∀ (query : Query) (k : Nat) (w : Worker),
    e.queries[q]? = some query → query.network.workers[k]? = some w → (q, k) ∉ left →
      ∃ o, w.life = .done o
  /-- If the query that is read is the one that can be cancelled, it will come to its end. -/
  released : ∀ (q : Nat) (query : Query), e.output = some q → e.handle = some q →
    e.queries[q]? = some query →
      query.network.cancelled = true ∨ query.network.Drained query.output

/-- What a call that the caller is in relies on. -/
def Relies (e : Executor) : Activity → Prop
  | .reading _ | .collecting _ _ => e.output ≠ none
  | .joining _ _ left _ => e.Awaits left
  | _ => True

/-- How the numbers that an executor holds stand to its queries. -/
structure Orderly (e : Executor) : Prop where
  sound : e.Sound
  handle : e.handle = none → e.queries = []
  configured : ∀ q, e.configured = some q → q < e.queries.length
  started : ∀ q ∈ e.started, q < e.queries.length
  output : ∀ q, e.output = some q → q ∈ e.started
  /-- Of all started queries only one is read. -/
  unheard : ∀ q ∈ e.started, ∀ query, e.queries[q]? = some query → e.output ≠ some q →
    query.network.Unheard query.output
  /-- A query that is not started has not begun, or has come to its end. -/
  resting : ∀ (q : Nat) (query : Query), e.queries[q]? = some query → q ∉ e.started →
    query.network.Untouched ∨ query.network.AllDone
  attends : e.Relies e.activity

section Keeping

variable {e e' : Executor} {q : Nat} {act : Activity}

theorem Awaits.pass {left : List (Nat × Nat)} (h : e.Awaits left) (hp : e.Passes e')
    (hsame : e.Same e') : e'.Awaits left where
  worker q k hmem := hp.startedWorkers hsame.started ▸ h.worker q k hmem
  joined := by
    intro q hq query' k w' hquery' hw' hnot
    obtain ⟨query, hquery, -, hlater, -⟩ := hp.query hquery'
    have hk : k < query.network.workers.length :=
      hlater.length ▸ (List.getElem?_eq_some_iff.mp hw').1
    have hw : query.network.workers[k]? = some query.network.workers[k] :=
      List.getElem?_eq_getElem hk
    obtain ⟨o, ho⟩ := h.joined q (hsame.started ▸ hq) query k _ hquery hw hnot
    rw [hlater.done k _ o hw ho] at hw'
    cases hw'
    exact ⟨o, ho⟩
  released := by
    intro q query' houtput hhandle hquery'
    obtain ⟨query, hquery, hout, hlater, -⟩ := hp.query hquery'
    rw [hout]
    exact (h.released q query (hsame.output ▸ houtput) (hsame.handle ▸ hhandle) hquery).imp
      hlater.cancelled hlater.drained

theorem Relies.pass (h : e.Relies act) (hp : e.Passes e') (hsame : e.Same e') :
    e'.Relies act := by
  cases act with
  | reading waiting => exact fun hnone => h (hsame.output ▸ hnone)
  | collecting rows waiting => exact fun hnone => h (hsame.output ▸ hnone)
  | joining p before left j => exact Awaits.pass h hp hsame
  | _ => trivial

theorem Relies.begun {waiting : Bool} (h : e.Relies act) (hreads : act.reads? = some waiting) :
    e.Relies act.begun := by
  rcases Activity.reads_cases hreads with rfl | ⟨rows, rfl⟩
  · exact h
  · exact h

theorem Relies.afterRead {waiting : Bool} (h : e.Relies act) (hreads : act.reads? = some waiting)
    (r : Except ChannelError Item) : e.Relies (act.afterRead r) := by
  rcases Activity.reads_cases hreads with rfl | ⟨rows, rfl⟩
  · rcases r with err | (row | _) <;> trivial
  · rcases r with err | (row | _)
    · trivial
    · exact h
    · trivial

/-- Queries that grow older leave the executor orderly, and so does letting go of an answer. -/
theorem Orderly.pass_or_drop (h : e.Orderly) (hp : e.Passes e')
    (hconfigured : e'.configured = e.configured) (hhandle : e'.handle = e.handle)
    (hstarted : e'.started = e.started) (houtput : ∀ q, e'.output = some q → e.output = some q)
    (hdropped : ∀ (q : Nat) (query' : Query), e.output = some q → e'.output ≠ some q →
      e'.queries[q]? = some query' → query'.network.Unheard query'.output)
    (hact : e'.Relies e'.activity) : e'.Orderly where
  sound := hp.sound
  handle hnone := List.eq_nil_of_length_eq_zero (by
    rw [hp.length, h.handle (hhandle ▸ hnone)]
    rfl)
  configured q hq := hp.length ▸ h.configured q (hconfigured ▸ hq)
  started q hq := hp.length ▸ h.started q (hstarted ▸ hq)
  output q hq := hstarted ▸ h.output q (houtput q hq)
  unheard := by
    intro q hq query' hquery' hnot
    by_cases hread : e.output = some q
    · exact hdropped q query' hread hnot hquery'
    · obtain ⟨query, hquery, hout, hlater, -⟩ := hp.query hquery'
      rw [hout]
      exact hlater.unheard (h.unheard q (hstarted ▸ hq) query hquery hread)
  resting := by
    intro q query' hquery' hnot
    have hnot' : q ∉ e.started := fun hmem => hnot (hstarted ▸ hmem)
    obtain ⟨query, hquery, -, hlater, hworkers⟩ := hp.query hquery'
    refine (h.resting q query hquery hnot').imp ?_ hlater.allDone
    intro huntouched k w hw
    exact huntouched k w (hworkers hnot' ▸ hw)
  attends := hact

theorem Orderly.pass (h : e.Orderly) (hp : e.Passes e') (hsame : e.Same e')
    (hact : e'.Relies e'.activity) : e'.Orderly :=
  h.pass_or_drop hp hsame.configured hsame.handle hsame.started
    (fun _ hq => hsame.output ▸ hq)
    (fun _ _ hread hnot => absurd (hsame.output ▸ hread) hnot) hact

/-- The caller is at something else. -/
theorem Orderly.at_activity (h : e.Orderly) (hact : e.Relies act) :
    ({ e with activity := act } : Executor).Orderly :=
  h.pass (passes_self h.sound rfl) ⟨rfl, rfl, rfl, rfl⟩
    (Relies.pass hact (passes_self h.sound rfl) ⟨rfl, rfl, rfl, rfl⟩)

end Keeping

/-! ### Everything that one event can do -/

/-- What one event does to an executor that is orderly. -/
inductive Turn (e : Executor) (event : Event) (e' : Executor) : Prop where
  | worker {q k : Nat} {query : Query} {w : Worker} {n' : Network} (hstarted : q ∈ e.started)
      (hquery : e.queries[q]? = some query) (hw : query.network.workers[k]? = some w)
      (hstep : Network.Step query.network k w n') (he : e' = e.setNetwork q n')
  | cancel {q : Nat} (hevent : event = .cancel q) (he : e' = e.onNetwork q Network.cancel)
  /-- The caller goes on reading. -/
  | read {waiting : Bool} (hreads : e.activity.reads? = some waiting) (hp : e.Passes e')
      (hsame : e.Same e')
      (hact : e'.activity = e.activity.begun ∨ ∃ r, e'.activity = e.activity.afterRead r)
  | stop {p : Purpose} {before : Bool} (hact : e.activity = .stopping p)
      (he : e' = { e with activity := .draining p before })
  /-- The caller cancels the query that it can cancel, unless the one that it reads is drained. -/
  | drain {p : Purpose} {before : Bool} {e₁ : Executor} (hact : e.activity = .draining p before)
      (he₁ : e₁ = e ∧ e.isDrained = true ∨ e₁ = e.cancel)
      (he : e' = { e₁ with activity := .joining p before e₁.startedWorkers .none })
  | join {p : Purpose} {before : Bool} {q k : Nat} {left : List (Nat × Nat)} {j : Joined}
      {o : Outcome} (hact : e.activity = .joining p before ((q, k) :: left) j)
      (ho : e.outcome? q k = some o)
      (he : e' = { e with activity := .joining p before left (j.add o) })
  /-- All workers are joined. -/
  | finish {p : Purpose} {before : Bool} {j : Joined} {a : Answer}
      (hact : e.activity = .joining p before [] j)
      (he : e' = ({ e.dropOutput with started := [] } : Executor).finish a)

section Turning

variable {e e' : Executor} {event : Event}

/-- A step of reading from the answer. -/
theorem stepRead_turn (h : e.Orderly) {waiting giveUp : Bool}
    (hreads : e.activity.reads? = some waiting)
    (hstep : e.stepRead waiting giveUp = some e') : e.Turn event e' := by
  have hstill : ∀ act, e.Passes { e with activity := act } := fun act => passes_self h.sound rfl
  unfold stepRead at hstep
  rw [Option.bind_eq_bind] at hstep
  obtain ⟨q, houtput, hstep⟩ := Option.bind_eq_some_iff.mp hstep
  obtain ⟨query, hquery, hstep⟩ := Option.bind_eq_some_iff.mp hstep
  obtain ⟨c, hc, hstep⟩ := Option.bind_eq_some_iff.mp hstep
  have hsound := h.sound q query hquery
  have hset : ∀ {c' act}, query.network.Later (query.network.setChannel query.output c')
        query.output →
      e.Passes { e.setNetwork q (query.network.setChannel query.output c') with activity := act } :=
    fun {c' act} hlater => passes_modify
      (f := fun _ => query.network.setChannel query.output c') h.sound rfl fun query' hquery' => by
        rw [hquery] at hquery'
        cases hquery'
        exact ⟨hlater, fun _ => rfl⟩
  cases waiting with
  | true =>
      simp only [if_true] at hstep
      cases giveUp with
      | true =>
          simp only [if_true] at hstep
          split at hstep
          · cases hstep
            rw [answered_eq]
            exact .read hreads (hstill _) ⟨rfl, rfl, rfl, rfl⟩ (.inr ⟨_, rfl⟩)
          · simp at hstep
      | false =>
          simp only [Bool.false_eq_true, if_false] at hstep
          obtain ⟨⟨r, c'⟩, htake, hn⟩ := Option.bind_eq_some_iff.mp hstep
          cases hn
          rw [answered_eq]
          refine .read hreads (hset ?_) ⟨rfl, rfl, rfl, rfl⟩ (.inr ⟨_, rfl⟩)
          rcases Channel.take?_cases htake with ⟨-, -, -, rfl⟩ | ⟨item, hslot, -, rfl⟩
          · rw [Network.setChannel_self hc]
            exact Network.later_self hsound
          · exact Network.later_take hsound hc hslot
  | false =>
      simp only [Bool.false_eq_true, if_false] at hstep
      split at hstep
      · simp at hstep
      · split at hstep
        · cases hstep
          rw [answered_eq]
          exact .read hreads (hstill _) ⟨rfl, rfl, rfl, rfl⟩ (.inr ⟨_, rfl⟩)
        · cases hstep
          rw [waiting_eq]
          exact .read hreads (hstill _) ⟨rfl, rfl, rfl, rfl⟩ (.inl rfl)

theorem stepCaller_turn (h : e.Orderly) {giveUp : Bool} (hstep : e.stepCaller giveUp = some e') :
    e.Turn event e' := by
  unfold stepCaller at hstep
  split at hstep
  · simp at hstep
  · rename_i waiting hact
    exact stepRead_turn h (by rw [hact]; rfl) hstep
  · rename_i rows waiting hact
    exact stepRead_turn h (by rw [hact]; rfl) hstep
  · rename_i p hact
    split at hstep
    · simp at hstep
    · cases hstep
      exact .stop hact rfl
  · rename_i p before hact
    split at hstep
    · simp at hstep
    · cases hstep
      by_cases hdrained : e.isDrained = true
      · exact .drain hact (.inl ⟨rfl, hdrained⟩) (by simp only [hdrained, if_true])
      · exact .drain hact (.inr rfl) (by simp only [hdrained, Bool.false_eq_true, if_false])
  · rename_i p before q k left j hact
    split at hstep
    · simp at hstep
    · obtain ⟨o, ho, rfl⟩ := Option.map_eq_some_iff.mp hstep
      exact .join hact ho rfl
  · rename_i p before j hact
    split at hstep
    · simp at hstep
    · cases hstep
      exact .finish hact rfl

/-- **Every event is one of these.** -/
theorem step_turn (h : e.Orderly) (hstep : e.step event = some e') : e.Turn event e' := by
  cases event with
  | worker q k m =>
      simp only [step] at hstep
      split at hstep
      · rename_i hmem
        rw [Option.bind_eq_bind] at hstep
        obtain ⟨query, hquery, hstep⟩ := Option.bind_eq_some_iff.mp hstep
        obtain ⟨n', hn', hstep⟩ := Option.bind_eq_some_iff.mp hstep
        cases hstep
        obtain ⟨w, hw, hworker⟩ := Network.step_cases (h.sound q query hquery) hn'
        exact .worker hmem hquery hw hworker rfl
      · simp at hstep
  | caller giveUp => exact stepCaller_turn h hstep
  | cancel q =>
      simp only [step] at hstep
      split at hstep
      · cases hstep
        exact .cancel rfl rfl
      · simp at hstep

/-- All started workers are still to be joined. -/
theorem awaits_all (hreleased : ∀ (q : Nat) (query : Query),
    e.output = some q → e.handle = some q → e.queries[q]? = some query →
      query.network.cancelled = true ∨ query.network.Drained query.output) :
    e.Awaits e.startedWorkers where
  worker _ _ hmem := hmem
  joined := by
    intro q hq query k w hquery hw hnot
    exact absurd (mem_startedWorkers.mpr ⟨hq, query, w, hquery, hw⟩) hnot
  released := hreleased

/-- A query that can be cancelled, is. -/
theorem cancelled_of_cancel {q : Nat} {query : Query} (hhandle : e.cancel.handle = some q)
    (hquery : e.cancel.queries[q]? = some query) : query.network.cancelled = true := by
  rw [(same_cancel e).handle] at hhandle
  unfold cancel onNetwork at hquery
  simp only [hhandle, List.getElem?_modify, if_true] at hquery
  obtain ⟨_, -, rfl⟩ := Option.map_eq_some_iff.mp hquery
  rfl

theorem Orderly.drained (h : e.Orderly) (hdrained : e.isDrained = true) {q : Nat} {query : Query}
    (houtput : e.output = some q) (hquery : e.queries[q]? = some query) :
    query.network.Drained query.output := by
  obtain ⟨c, hc⟩ := (h.sound q query hquery).channel_of_root
  unfold isDrained at hdrained
  simp only [houtput, hquery, hc] at hdrained
  exact ⟨c, hc, hdrained⟩

theorem Orderly.cancelled (h : e.Orderly) : e.cancel.Orderly := by
  have hactivity : e.cancel.activity = e.activity := by
    unfold cancel
    split <;> rfl
  refine h.pass (passes_cancel h.sound) (same_cancel e) ?_
  rw [hactivity]
  exact h.attends.pass (passes_cancel h.sound) (same_cancel e)

/-- Of a call that has joined all workers nothing is left to be done. -/
theorem Orderly.all_joined (h : e.Orderly) {p : Purpose} {before : Bool} {j : Joined}
    (hact : e.activity = .joining p before [] j) {q : Nat} (hq : q ∈ e.started) {query : Query}
    (hquery : e.queries[q]? = some query) : query.network.AllDone := by
  have hawaits := h.attends
  rw [hact] at hawaits
  exact fun k w hw => hawaits.joined q hq query k w hquery hw List.not_mem_nil

/-- The answer that is read is let go. -/
theorem Orderly.dropOutput (h : e.Orderly) {last : Answer} (hidle : e.activity = .idle last) :
    e.dropOutput.Orderly := by
  obtain ⟨⟨hconfigured, houtput, hhandle⟩, hstarted, hactivity⟩ := dropOutput_kept e
  refine h.pass_or_drop (passes_dropOutput h.sound) hconfigured hhandle hstarted ?_
    (fun q query' hread _ hquery' => unheard_dropOutput hread hquery') ?_
  · intro q hq
    rw [houtput] at hq
    cases hq
  · rw [hactivity, hidle]
    trivial

/-- When everything is joined, nothing is started. -/
theorem Orderly.settled (h : e.Orderly) (houtput : e.output = none) {last : Answer}
    (hidle : e.activity = .idle last)
    (hdone : ∀ q ∈ e.started, ∀ query, e.queries[q]? = some query → query.network.AllDone) :
    ({ e with started := [] } : Executor).Orderly where
  sound := h.sound
  handle := h.handle
  configured := h.configured
  started _ hq := absurd hq List.not_mem_nil
  output := by
    intro q hq
    rw [show ({ e with started := [] } : Executor).output = e.output from rfl, houtput] at hq
    cases hq
  unheard _ hq := absurd hq List.not_mem_nil
  resting := by
    intro q query hquery _
    by_cases hq : q ∈ e.started
    · exact .inr (hdone q hq query hquery)
    · exact h.resting q query hquery hq
  attends := by
    show Relies _ e.activity
    rw [hidle]
    trivial

theorem dropOutput_finish (e : Executor) (a : Answer) :
    ({ e.dropOutput with started := [] } : Executor).finish a
      = { ({ e with activity := .idle a } : Executor).dropOutput with started := [] } := by
  obtain ⟨queries, configured, output, schema, handle, started, activity⟩ := e
  cases output <;> rfl

/-- **Every event leaves an orderly executor orderly.** -/
theorem Turn.orderly (hturn : e.Turn event e') (h : e.Orderly) : e'.Orderly := by
  have hattends := h.attends
  cases hturn with
  | worker hstarted hquery hw hstep he =>
      subst he
      have hp := passes_worker h.sound hstarted hquery hw hstep
      exact h.pass hp ⟨rfl, rfl, rfl, rfl⟩ (hattends.pass hp ⟨rfl, rfl, rfl, rfl⟩)
  | @cancel q hevent he =>
      subst he
      have hp : e.Passes (e.onNetwork q Network.cancel) := passes_onCancel h.sound
      exact h.pass hp ⟨rfl, rfl, rfl, rfl⟩ (hattends.pass hp ⟨rfl, rfl, rfl, rfl⟩)
  | read hreads hp hsame hact =>
      refine h.pass hp hsame ?_
      rcases hact with hact | ⟨r, hact⟩
      · rw [hact]
        exact (hattends.begun hreads).pass hp hsame
      · rw [hact]
        exact (hattends.afterRead hreads r).pass hp hsame
  | stop hact he =>
      subst he
      exact h.at_activity trivial
  | drain hact he₁ he =>
      subst he
      rcases he₁ with ⟨rfl, hdrained⟩ | rfl
      · exact h.at_activity (awaits_all fun q query hread _ hquery =>
          .inr (h.drained hdrained hread hquery))
      · exact h.cancelled.at_activity (awaits_all fun q query _ hhandle hquery =>
          .inl (cancelled_of_cancel hhandle hquery))
  | @join p before q k left j o hact ho he =>
      subst he
      rw [hact] at hattends
      have hawaits : e.Awaits left := by
        refine ⟨?_, ?_, hattends.released⟩
        · exact fun q' k' hmem => hattends.worker q' k' (List.mem_cons_of_mem _ hmem)
        · intro q' hq' query k' w hquery hw hnot
          by_cases hnext : (q', k') = (q, k)
          · cases hnext
            obtain ⟨v, hv, hlife⟩ := done_of_outcome hquery ho
            rw [hw] at hv
            cases hv
            exact ⟨o, hlife⟩
          · exact hattends.joined q' hq' query k' w hquery hw fun hmem =>
              (List.mem_cons.mp hmem).elim hnext hnot
      exact h.at_activity hawaits
  | @finish p before j a hact he =>
      subst he
      rw [dropOutput_finish]
      have hidle : ({ e with activity := .idle a } : Executor).Orderly := h.at_activity trivial
      obtain ⟨⟨-, houtput, -⟩, hstarted, hactivity⟩ :=
        dropOutput_kept { e with activity := .idle a }
      refine (hidle.dropOutput rfl).settled houtput hactivity ?_
      intro q hq query' hquery'
      obtain ⟨query, hquery, -, hlater, -⟩ := (passes_dropOutput hidle.sound).query hquery'
      exact hlater.allDone (h.all_joined hact (hstarted ▸ hq) hquery)

theorem Orderly.step (h : e.Orderly) (hstep : e.step event = some e') : e'.Orderly :=
  (step_turn h hstep).orderly h

end Turning

/-! ### Calls -/

section Calls

variable {e e' : Executor} {last : Answer} {p : Plan} {cat : Catalog} {a : Assembly}

theorem new_orderly : new.Orderly where
  sound _ _ hq := by cases hq
  handle _ := rfl
  configured _ hq := by cases hq
  started _ hq := absurd hq List.not_mem_nil
  output _ hq := by cases hq
  unheard _ hq := absurd hq List.not_mem_nil
  resting _ _ hq := by cases hq
  attends := trivial

/-- A query that is configured has not begun. -/
theorem Orderly.configure (h : e.Orderly) (hidle : e.activity = .idle last)
    (ha : p.assemble cat = .ok a) : (e.configure a).Orderly := by
  obtain ⟨root, schemas, t, -, hl, -, -, -⟩ := Assembly.layout_of_assemble ha
  have hquery : ∀ {q : Nat} {query : Query}, (e.configure a).queries[q]? = some query →
      e.queries[q]? = some query ∨ q = e.queries.length ∧ query = ⟨.ofAssembly a, a.output⟩ := by
    intro q query hq
    unfold Executor.configure at hq
    rcases Nat.lt_or_ge q e.queries.length with hlt | hge
    · rw [List.getElem?_append_left hlt] at hq
      exact .inl hq
    · obtain ⟨hlt, -⟩ := List.getElem?_eq_some_iff.mp hq
      have hlast : q = e.queries.length := by
        simp at hlt
        omega
      subst hlast
      simp at hq
      exact .inr ⟨rfl, hq.symm⟩
  have hlength : (e.configure a).queries.length = e.queries.length + 1 := by
    simp [Executor.configure]
  refine ⟨?_, ?_, ?_, ?_, h.output, ?_, ?_, ?_⟩
  · intro q query hq
    rcases hquery hq with hq | ⟨-, rfl⟩
    · exact h.sound q query hq
    · exact Network.sound_ofAssembly hl
  · intro hnone
    cases hnone
  · intro q hq
    cases hq
    rw [hlength]
    exact Nat.lt_succ_self _
  · intro q hq
    rw [hlength]
    exact Nat.lt_succ_of_lt (h.started q hq)
  · intro q hq query hquery' hnot
    rcases hquery hquery' with hold | ⟨rfl, -⟩
    · exact h.unheard q hq query hold hnot
    · exact absurd (h.started _ hq) (Nat.lt_irrefl _)
  · intro q query hq hnot
    rcases hquery hq with hold | ⟨-, rfl⟩
    · exact h.resting q query hold hnot
    · refine .inl fun k w hw => ?_
      obtain ⟨task, -, rfl⟩ := Network.workers_ofAssembly hw
      exact ⟨task.operator, rfl⟩
  · show Relies _ e.activity
    rw [hidle]
    trivial

/-- Starting a query lets go of the answer that was read before. -/
theorem Orderly.startQuery (h : e.Orderly) (hidle : e.activity = .idle last) {e₁ : Executor}
    (hstart : e.startQuery = .ok e₁) : e₁.output ≠ none ∧
      ∀ act, (∀ e : Executor, e.output ≠ none → e.Relies act) →
        ({ e₁ with activity := act } : Executor).Orderly := by
  unfold Executor.startQuery at hstart
  cases hq : e.configured with
  | none =>
      rw [hq] at hstart
      cases hstart
  | some q =>
      rw [hq] at hstart
      cases hstart
      have hdropped := h.dropOutput hidle
      obtain ⟨⟨hconfigured, houtput, -⟩, -, -⟩ := dropOutput_kept e
      refine ⟨nofun, fun act hact => ⟨hdropped.sound, hdropped.handle, nofun, ?_, ?_, ?_, ?_,
        hact _ nofun⟩⟩
      · intro q' hq'
        rcases List.mem_append.mp hq' with hold | hnew
        · exact hdropped.started q' hold
        · obtain rfl := List.mem_singleton.mp hnew
          exact hdropped.configured q' (hconfigured.trans hq)
      · intro q' hq'
        cases hq'
        exact List.mem_append_right _ (List.mem_singleton_self q)
      · intro q' hq' query hquery hnot
        rcases List.mem_append.mp hq' with hold | hnew
        · exact hdropped.unheard q' hold query hquery (by rw [houtput]; simp)
        · obtain rfl := List.mem_singleton.mp hnew
          exact absurd rfl hnot
      · intro q' query hquery hnot
        exact hdropped.resting q' query hquery fun hold =>
          hnot (List.mem_append_left _ hold)

/-- Whatever the caller asks, an orderly executor stays orderly. -/
theorem Orderly.begin (h : e.Orderly) (hidle : e.activity = .idle last) (r : Request) :
    (e.begin r).Orderly := by
  have hfinish : ∀ a, (e.finish a).Orderly := fun a => h.at_activity trivial
  unfold Executor.begin
  cases r with
  | start =>
      simp only
      split
      · rename_i e₁ hstart
        exact (h.startQuery hidle hstart).2 _ fun _ _ => trivial
      · exact hfinish _
  | next =>
      simp only
      split
      · rename_i q houtput
        exact h.at_activity (by simp [Relies, houtput])
      · exact hfinish _
  | close =>
      simp only
      split
      · exact h.at_activity trivial
      · exact hfinish _
  | execute =>
      simp only
      split
      · exact hfinish _
      · rename_i e₁ _ hstart
        exact (h.startQuery hidle hstart).2 _ fun _ hread => hread
      · exact hfinish _
  | shutDown =>
      simp only
      split
      · exact hfinish _
      · have hworkers : e.cancel.startedWorkers = e.startedWorkers :=
          (passes_cancel h.sound).startedWorkers (same_cancel e).started
        rw [← hworkers]
        exact h.cancelled.at_activity (awaits_all fun q query _ hhandle hquery =>
          .inl (cancelled_of_cancel hhandle hquery))

/-- The states of an executor that is given queries of plans that can be run, in any order and
whatever it does with those before, and asked for whatever it can be. -/
inductive Used : Executor → Prop where
  | new : Used new
  | configure {e : Executor} {last : Answer} {p : Plan} {cat : Catalog} {a : Assembly}
      (hbefore : Used e) (hidle : e.activity = .idle last) (ha : p.assemble cat = .ok a) :
      Used (e.configure a)
  | act {e e' : Executor} (α : Act) (hbefore : Used e) (hact : e.act α = some e') : Used e'

theorem Used.orderly (h : Used e) : e.Orderly := by
  induction h with
  | new => exact new_orderly
  | configure hbefore hidle ha ih => exact ih.configure hidle ha
  | act α hbefore hact ih =>
      cases α with
      | event event => exact ih.step hact
      | call r =>
          obtain rfl := act_call hact
          unfold Executor.act at hact
          simp only at hact
          split at hact
          · rename_i last hidle
            exact ih.begin hidle r
          · simp at hact

end Calls

end Executor

end StreamQuery
