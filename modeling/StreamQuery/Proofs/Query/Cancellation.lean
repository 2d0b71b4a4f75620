/-
What a cancelled query says of itself.

While nobody has cancelled a query whose plan yields rows, nothing fails.  Once it is
cancelled its workers let go of their channels one after the other, and whoever still
waits may notice either that the query is cancelled or that the other half of his channel
is gone.  If he goes by the second he reports a failure that is none, and closing the
query answers with it.

`Executor.Overlooks` is that choice.  Whatever happens, no worker crashes and nothing fails
before a cancellation; and in a run in which nobody overlooks a cancellation, workers and
caller report nothing but the cancellation itself.
-/
import StreamQuery.Proofs.Query.Answer
import StreamQuery.Proofs.Query.Liveness
import StreamQuery.Proofs.Query.Script

namespace StreamQuery

/-! ### Noticing that the other half is gone -/

namespace Network

/-- The other half of the channel that a worker uses is gone. -/
def Forsaken (n : Network) (w : Worker) (s : Stage) : Prop :=
  match s.want with
  | .receive input => ∃ i c, w.inputs[input]? = some i ∧ n.channels[i]? = some c ∧
      c.slot = none ∧ c.producer = false
  | .send _ _ | .close => ∃ c, n.channels[w.output]? = some c ∧ c.consumer = false
  | .fail _ => False

variable {n n' : Network} {output k : Nat} {w : Worker} {s : Stage} {m : Move} {err : ChannelError}
  {waiting : Bool}

theorem life_of_setLife (hw : n.workers[k]? = some w) {life life' : Life} {v : Worker}
    (h : n.setLife k v life = n.setLife k w life') (hv : n.workers[k]? = some v) :
    life = life' := by
  have hboth := congrArg (fun n : Network => n.workers[k]?.map Worker.life) h
  simpa [workers_setLife hv, workers_setLife hw] using hboth

/-- A call that fails as it begins fails by cancellation. -/
theorem cancelled_of_begin (h : n.Sound output) (hw : n.workers[k]? = some w)
    (hlife : w.life = .working s false)
    (hstep : n.begin k w s = some (n.setLife k w (.leaving (.failed err) w.inputs true))) :
    err = .cancelled := by
  have hfailed : ∀ {life : Life},
      some (n.setLife k w life) = some (n.setLife k w (.leaving (.failed err) w.inputs true)) →
        life = .leaving (.failed err) w.inputs true :=
    fun heq => life_of_setLife hw (Option.some.inj heq) hw
  unfold begin at hstep
  cases hwant : s.want with
  | fail d =>
      simp only [hwant] at hstep
      cases hfailed hstep
  | receive input =>
      simp only [hwant] at hstep
      obtain ⟨i, c, hi, hc, hopen⟩ := h.wanted_input hw hlife hwant
      rw [inputOf?_eq hi hc, Option.bind_eq_bind, Option.bind_some] at hstep
      rcases c.beginTake_cases n.cancelled with hb | ⟨-, -, hb⟩ | ⟨-, -, hb⟩
      · rw [hopen] at hb
        cases hb.1
      · simp only [hb, Life.answered, Stage.reply, hwant] at hstep
        cases hfailed hstep
        rfl
      · simp only [hb] at hstep
        cases hfailed hstep
  | send row after =>
      simp only [hwant] at hstep
      split at hstep
      · rename_i e he
        obtain ⟨-, rfl⟩ := Channel.beginPut_eq_some he
        simp only [Life.answered, Stage.reply, hwant] at hstep
        cases hfailed hstep
        rfl
      · cases hfailed hstep
  | close =>
      simp only [hwant] at hstep
      split at hstep
      · rename_i e he
        obtain ⟨-, rfl⟩ := Channel.beginPut_eq_some he
        simp only [Life.answered, Stage.reply, hwant] at hstep
        cases hfailed hstep
        rfl
      · cases hfailed hstep

/-- A call that fails when its turn has come finds the other half gone. -/
theorem forsaken_of_use (h : n.Sound output) (hw : n.workers[k]? = some w)
    (hlife : w.life = .working s true)
    (hstep : n.use k w s = some (n.setLife k w (.leaving (.failed err) w.inputs true))) :
    n.Forsaken w s := by
  have hput : ∀ {item : Item}, (∃ life, Life.answered w s .done = life ∧
        ∀ o sources sink, life ≠ .leaving (.failed o) sources sink) →
      n.putItem k w s item = some (n.setLife k w (.leaving (.failed err) w.inputs true)) →
      ∃ c, n.channels[w.output]? = some c ∧ c.consumer = false := by
    rintro item ⟨life, hdone, hnot⟩ hitem
    have hout := h.writes k w hw
    obtain ⟨c, hc, ⟨hgone, -⟩ | ⟨-, -, heq⟩⟩ := putItem_cases hout hitem
    · exact ⟨c, hout ▸ hc, hgone⟩
    · have hboth := congrArg (fun n : Network => n.workers[k]?.map Worker.life) heq
      rw [hdone] at hboth
      simp only [workers_setLife hw, workers_update hw, if_pos, Option.map_some,
        Option.some.injEq] at hboth
      exact absurd hboth.symm (hnot _ _ _)
  unfold use at hstep
  unfold Forsaken
  cases hwant : s.want with
  | fail d =>
      simp only [hwant] at hstep
      cases hstep
  | receive input =>
      simp only [hwant] at hstep ⊢
      obtain ⟨i, c, hi, hc, -⟩ := h.wanted_input hw hlife hwant
      rw [inputOf?_eq hi hc, Option.bind_eq_bind, Option.bind_some] at hstep
      obtain ⟨⟨r, c'⟩, htake, hn⟩ := Option.bind_eq_some_iff.mp hstep
      rcases Channel.take?_cases htake with ⟨hslot, hgone, rfl, rfl⟩ | ⟨item, hslot, rfl, rfl⟩
      · exact ⟨i, c', hi, hc, hslot, hgone⟩
      · simp only [Life.answered, Stage.reply, hwant, Option.some.injEq] at hn
        have hboth := congrArg (fun n : Network => n.workers[k]?.map Worker.life) hn
        simp [workers_setLife hw, workers_update hw] at hboth
  | send row after =>
      simp only [hwant] at hstep ⊢
      exact hput ⟨_, rfl, by simp [Life.answered, Stage.reply, hwant]⟩ hstep
  | close =>
      simp only [hwant] at hstep ⊢
      exact hput ⟨_, rfl, by simp [Life.answered, Stage.reply, hwant, Life.ending]⟩ hstep

/-- **A worker that fails otherwise than by cancellation was waiting and has noticed that the other
half of its channel is gone.** -/
theorem forsaken_of_step (h : n.Sound output) (hw : n.workers[k]? = some w)
    (hlife : w.life = .working s waiting) (herr : err ≠ .cancelled)
    (hstep : n.step k m = some (n.setLife k w (.leaving (.failed err) w.inputs true))) :
    m = .proceed ∧ waiting = true ∧ n.Forsaken w s := by
  unfold step at hstep
  simp only [hw, hlife] at hstep
  cases waiting with
  | false =>
      cases m with
      | proceed => exact absurd (cancelled_of_begin h hw hlife hstep) herr
      | _ => cases hstep
  | true =>
      cases m with
      | proceed => exact ⟨rfl, rfl, forsaken_of_use h hw hlife hstep⟩
      | giveUp =>
          simp only at hstep
          split at hstep
          · have hgiven := life_of_setLife hw (Option.some.inj hstep) hw
            unfold Life.answered Stage.reply at hgiven
            cases hwant : s.want <;> simp only [hwant] at hgiven <;> cases hgiven <;>
              exact absurd rfl herr
          · cases hstep
      | _ => cases hstep

/-! ### How operators end -/

/-- An error that a query may report: it was cancelled, and the error is one of these. -/
def Blames (n : Network) (errs : ChannelError → Prop) (err : ChannelError) : Prop :=
  n.cancelled = true ∧ errs err

/-- Operators end well or with an error that may be reported. -/
def Excused (n : Network) (may : ChannelError → Prop) : Prop :=
  ∀ (k : Nat) (w : Worker) (o : Outcome), n.workers[k]? = some w → w.life.ended? = some o →
    o = .ok ∨ ∃ err, may err ∧ o = .failed err

variable {errs may : ChannelError → Prop} {script : Nat → List Row}

theorem Excused.unfailed (h : n.Excused (n.Blames errs)) (hcalm : n.cancelled = false) :
    n.Unfailed := by
  intro k w o hw ho
  rcases h k w o hw ho with hok | ⟨err, ⟨hcancelled, -⟩, -⟩
  · exact hok
  · rw [hcalm] at hcancelled
    cases hcancelled

/-- The life of one worker changes. -/
theorem Excused.setLife (h : n.Excused may) (hw : n.workers[k]? = some w) {life : Life}
    (hworkers : n'.workers = n.workers.set k { w with life })
    (hlife : ∀ o, life.ended? = some o → o = .ok ∨ ∃ err, may err ∧ o = .failed err) :
    n'.Excused may := by
  intro j v o hv ho
  have hv' : (n.setLife k w life).workers[j]? = some v := by
    rw [← hv, hworkers]
    rfl
  rw [workers_setLife hw] at hv'
  split at hv'
  · cases hv'
    exact hlife o ho
  · exact h j v o hv' ho

theorem Excused.mono {may' : ChannelError → Prop} (h : n.Excused may)
    (hmay : ∀ err, may err → may' err) : n.Excused may' := by
  intro k w o hw ho
  rcases h k w o hw ho with hok | ⟨err, herr, rfl⟩
  · exact .inl hok
  · exact .inr ⟨err, hmay err herr, rfl⟩

/-- **A step excuses what it ends**: it crashes nobody, and it fails nobody before a cancellation.
What a worker that overlooks a cancellation reports is in `errs` by assumption. -/
theorem Excused.step (h : n.Excused (n.Blames errs)) (hs : n.Sound output)
    (hfollows : n.Follows script) (hheard : ∀ c, n.channels[output]? = some c → c.consumer = true)
    (hw : n.workers[k]? = some w) (hstep : Step n k w n') (hmove : n.step k m = some n')
    (hcancelled : errs .cancelled)
    (hoverlooked : m = .proceed → n.cancelled = true →
      (∃ s, w.life = .working s true ∧ n.Forsaken w s) → ∀ err, errs err) :
    n'.Excused (n'.Blames errs) := by
  have hmay : ∀ err, n.Blames errs err → n'.Blames errs err :=
    fun err herr => ⟨hstep.cancelled_mono herr.1, herr.2⟩
  refine Excused.mono ?_ hmay
  have hended : ∀ {o o' : Outcome}, w.life.ended? = some o → some o = some o' →
      o' = .ok ∨ ∃ err, n.Blames errs err ∧ o' = .failed err := by
    rintro o _ ho ⟨⟩
    exact h k w o hw ho
  cases hstep with
  | wait _ _ => exact h.setLife hw rfl (by simp [Life.ended?])
  | @halt s waiting o hlife hwhy =>
      refine h.setLife hw rfl ?_
      rintro _ ⟨⟩
      by_cases hcalm : n.cancelled = true
      · cases hwhy with
        | crashed hwant => exact absurd hwant (hfollows.not_fail hs hw hlife)
        | cancelled _ => exact .inr ⟨_, ⟨hcalm, hcancelled⟩, rfl⟩
        | consumerClosed _ _ =>
            obtain ⟨hm, rfl, hforsaken⟩ := forsaken_of_step hs hw hlife (by simp) hmove
            exact .inr ⟨_, ⟨hcalm, hoverlooked hm hcalm ⟨s, hlife, hforsaken⟩ _⟩, rfl⟩
        | producerStopped _ _ _ _ _ =>
            obtain ⟨hm, rfl, hforsaken⟩ := forsaken_of_step hs hw hlife (by simp) hmove
            exact .inr ⟨_, ⟨hcalm, hoverlooked hm hcalm ⟨s, hlife, hforsaken⟩ _⟩, rfl⟩
      · have hunfailed := h.unfailed (by simpa using hcalm)
        rcases hunfailed.halts_cases hs hheard hw hlife hwhy with ⟨d, hwant, -⟩ | ⟨hc, -⟩
        · exact absurd hwant (hfollows.not_fail hs hw hlife)
        · exact absurd hc hcalm
  | receive _ _ _ _ _ => exact h.setLife hw rfl (by simp [Life.ended?])
  | send _ _ _ _ _ => exact h.setLife hw rfl (by simp [Life.ended?])
  | close _ _ _ _ _ => exact h.setLife hw rfl fun o ho => by cases ho; exact .inl rfl
  | dropSource hlife _ _ => exact h.setLife hw rfl fun o' ho => hended (by rw [hlife]; rfl) ho
  | dropSink hlife _ => exact h.setLife hw rfl fun o' ho => hended (by rw [hlife]; rfl) ho
  | @finish o hlife =>
      obtain ⟨b, hb⟩ := finish_eq n k w o
      rw [hb]
      have hdone : (n.setLife k w (.done o)).Excused (n.Blames errs) :=
        h.setLife hw rfl fun o' ho => hended (by rw [hlife]; rfl) ho
      exact hdone

end Network

namespace Executor

/-! ### What the caller gets -/

/-- An answer reports only errors that may be reported. -/
def Answer.Excused (may : ChannelError → Prop) : Answer → Prop
  | .failed (.channel err) => may err
  | .crashed _ => False
  | _ => True

/-- A read that failed has failed with an error that may be reported. -/
def Purpose.Excused (may : ChannelError → Prop) : Purpose → Prop
  | .execute (.error err) => may err
  | _ => True

/-- The workers that were joined ended well or with errors that may be reported. -/
structure Joined.Excused (may : ChannelError → Prop) (j : Joined) : Prop where
  crash : j.crash = .none
  failure : ∀ err, j.failure = some err → may err
  cancelled : j.cancelled = true → may .cancelled

/-- What the caller has learned or was answered may be reported. -/
def Activity.Excused (may : ChannelError → Prop) : Activity → Prop
  | .idle ans => ans.Excused may
  | .reading _ | .collecting _ _ => True
  | .stopping p | .draining p _ => p.Excused may
  | .joining p _ _ j => p.Excused may ∧ j.Excused may

section Caller

variable {e e' e₀ : Executor} {q : Nat} {a : Assembly} {n n' : Network} {event : Event}
  {act : Activity} {errs may may' : ChannelError → Prop} {p : Plan} {cat : Catalog}

theorem Joined.excused_none : Joined.none.Excused may where
  crash := rfl
  failure := nofun
  cancelled := nofun

theorem Joined.Excused.add {j : Joined} {o : Outcome} (h : j.Excused may)
    (ho : o = .ok ∨ ∃ err, may err ∧ o = .failed err) : (j.add o).Excused may := by
  rcases ho with rfl | ⟨err, herr, rfl⟩
  · exact h
  · have hfailed : ∀ {err' : ChannelError}, may err' →
        (⟨j.failure.or (some err'), j.cancelled, j.crash⟩ : Joined).Excused may := by
      intro err' herr'
      refine ⟨h.crash, ?_, h.cancelled⟩
      intro first hfirst
      rcases Option.or_eq_some_iff.mp hfirst with hbefore | ⟨-, ⟨⟩⟩
      · exact h.failure first hbefore
      · exact herr'
    cases err with
    | cancelled => exact ⟨h.crash, h.failure, fun _ => herr⟩
    | consumerClosed => exact hfailed herr
    | producerStopped => exact hfailed herr

/-- What a call answers in the end is a matter of what it has read and joined. -/
theorem excused_joinedResult {purpose : Purpose} {before : Bool} {j : Joined}
    (hp : purpose.Excused may) (hj : j.Excused may) :
    (e.joinedResult purpose before j).Excused may := by
  have hclose : (closeResult before j).Excused may := by
    unfold closeResult
    rw [hj.crash]
    cases hfailure : j.failure with
    | some err => exact hj.failure err hfailure
    | none =>
        simp only
        split
        · rename_i hboth
          exact hj.cancelled (by simp_all)
        · trivial
  unfold joinedResult
  split
  · trivial
  · exact hclose
  · split
    · trivial
    · exact hp
  · exact hclose

theorem excused_afterRead {waiting : Bool} {r : Except ChannelError Item} (h : act.Excused may)
    (hreads : act.reads? = some waiting) (hr : ∀ err, r = .error err → may err) :
    (act.afterRead r).Excused may := by
  rcases Activity.reads_cases hreads with rfl | ⟨rows, rfl⟩
  · rcases r with err | (row | _)
    · exact hr err rfl
    · trivial
    · trivial
  · rcases r with err | (row | _)
    · exact hr err rfl
    · trivial
    · trivial

theorem excused_begun (h : act.Excused may) : act.begun.Excused may := by
  cases act <;> exact h

theorem Activity.Excused.mono (h : act.Excused may) (hmay : ∀ err, may err → may' err) :
    act.Excused may' := by
  have hpurpose : ∀ {p : Purpose}, p.Excused may → p.Excused may' := by
    rintro (_ | (err | rows) | _) hp
    · trivial
    · exact hmay err hp
    · trivial
    · trivial
  cases act with
  | idle ans =>
      cases ans with
      | failed err =>
          cases err with
          | channel err => exact hmay err h
          | _ => trivial
      | crashed d => exact h
      | _ => trivial
  | stopping p => exact hpurpose h
  | draining p before => exact hpurpose h
  | joining p before left j =>
      exact ⟨hpurpose h.1, h.2.crash, fun err herr => hmay err (h.2.failure err herr),
        fun hj => hmay _ (h.2.cancelled hj)⟩
  | _ => trivial

/-- A call begins with nothing to report. -/
theorem excused_begin (e : Executor) (r : Request) : (e.begin r).activity.Excused may := by
  have hstart : ∀ {err : QueryError}, e.startQuery = .error err → err = .notConfigured := by
    intro err herr
    unfold startQuery at herr
    split at herr <;> cases herr
    rfl
  cases r with
  | start =>
      unfold begin
      simp only
      split
      · trivial
      · rename_i err herr
        rw [hstart herr]
        trivial
  | execute =>
      unfold begin
      simp only
      split
      · trivial
      · trivial
      · rename_i err herr
        rw [hstart herr]
        trivial
  | shutDown =>
      unfold begin
      simp only
      split
      · trivial
      · exact ⟨trivial, Joined.excused_none⟩
  | _ =>
      unfold begin
      simp only
      split <;> trivial

/-! ### Runs -/

/-- Whoever waits notices that the other half of his channel is gone, and not that the query is
cancelled. -/
def Overlooks (e : Executor) : Event → Prop
  | .worker q k m => m = .proceed ∧ ∃ query w s, e.queries[q]? = some query ∧
      query.network.cancelled = true ∧ query.network.workers[k]? = some w ∧
      w.life = .working s true ∧ query.network.Forsaken w s
  | .caller giveUp => giveUp = false ∧ e.activity.reads? = some true ∧ ∃ q query c,
      e.output = some q ∧ e.queries[q]? = some query ∧ query.network.cancelled = true ∧
      query.network.channels[query.output]? = some c ∧ c.slot = none ∧ c.producer = false
  | .cancel _ => False

/-- What becomes of an executor while nobody overlooks a cancellation. -/
inductive Heeds (e : Executor) : Executor → Prop where
  | refl : Heeds e e
  | event {e' e'' : Executor} {event : Event} (hbefore : Heeds e e')
      (hheeds : ¬ e'.Overlooks event) (hstep : e'.step event = some e'') : Heeds e e''
  | call {e' e'' : Executor} {r : Request} (hbefore : Heeds e e')
      (hcall : e'.act (.call r) = some e'') : Heeds e e''

/-- The operators of a query follow a script as long as they work, and what they report is
excused. -/
structure Spared (n : Network) (errs : ChannelError → Prop) : Prop where
  follows : n.AllDone ∨ ∃ script, n.Follows script
  excused : n.Excused (n.Blames errs)

theorem Spared.cancel (h : Spared n errs) : Spared n.cancel errs where
  follows := by
    rcases h.follows with hdone | ⟨script, hscript⟩
    · exact .inl hdone
    · exact .inr ⟨script, hscript.slot, hscript.closed, hscript.live⟩
  excused := by
    have hexcused : n.cancel.Excused (n.Blames errs) := h.excused
    exact hexcused.mono fun err herr => ⟨rfl, herr.2⟩

theorem spared_fresh (ha : p.assemble cat = .ok a) (hfine : ¬ p.Crashes cat) :
    Spared (Network.ofAssembly a) errs where
  follows := .inr (Network.follows_ofAssembly ha hfine)
  excused := by
    intro k w o hw ho
    obtain ⟨t, -, rfl⟩ := Network.workers_ofAssembly hw
    cases ho

/-- The networks that come after one another report no less. -/
theorem Tick.blames (htick : Tick e q a n event e' n') {err : ChannelError}
    (h : n.Blames errs err) : n'.Blames errs err := by
  cases htick with
  | worker _ _ hstep _ => exact ⟨hstep.cancelled_mono h.1, h.2⟩
  | cancel _ _ => exact ⟨rfl, h.2⟩
  | drain _ hn _ =>
      rcases hn with ⟨rfl, -⟩ | ⟨rfl, -⟩
      · exact h
      · exact ⟨rfl, h.2⟩
  | finish _ _ _ _ _ _ _ _ _ _ _ _ hcancelled => exact ⟨hcancelled.trans h.1, h.2⟩
  | _ => exact h

/-- **Every event spares the operators**, if those who overlook a cancellation in it report errors
in `errs`. -/
theorem Tick.spared (htick : Tick e q a n event e' n') (hserves : e.Serves q a n)
    (hcancelled : errs .cancelled) (hoverlooked : e.Overlooks event → ∀ err, errs err)
    (h : Spared n errs) (hserves' : e'.Serves q a n') : Spared n' errs := by
  have hblames : ∀ err, n.Blames errs err → n'.Blames errs err := fun _ => htick.blames
  cases htick with
  | worker hstarted hw hstep _ hmove =>
      obtain ⟨m, rfl, hm⟩ := hmove
      rcases h.follows with hdone | ⟨script, hscript⟩
      · obtain ⟨o, ho⟩ := hdone _ _ hw
        cases hstep <;> simp_all
      · refine ⟨.inr (hscript.step hserves.sound hw hstep), ?_⟩
        refine h.excused.step hserves.sound hscript (hserves.heard_of_started hstarted) hw hstep hm
          hcancelled ?_
        rintro rfl hc ⟨s, hlife, hforsaken⟩
        exact hoverlooked ⟨rfl, _, _, s, hserves.query, hc, hw, hlife, hforsaken⟩
  | cancel _ _ => exact h.cancel
  | take _ hc hslot _ =>
      refine ⟨?_, h.excused⟩
      rcases h.follows with hdone | ⟨script, hscript⟩
      · exact .inl hdone
      · exact .inr ⟨_, hscript.taken (hserves.sound.taken_by_caller hc hslot)⟩
  | drain _ hn _ =>
      rcases hn with ⟨rfl, -⟩ | ⟨rfl, -⟩
      · exact h
      · exact h.cancel
  | finish _ hworkers _ _ hsame _ _ _ hkept houtput _ _ _ =>
      have hexcused : n'.Excused (n.Blames errs) := by
        intro k w o hw
        rw [hworkers] at hw
        exact h.excused k w o hw
      cases hserves.phase with
      | configured _ hnone _ _ => rw [hsame hnone]; exact h
      | ended _ hnone _ _ => rw [hsame hnone]; exact h
      | running hconfigured _ _ _ =>
          refine ⟨?_, hexcused.mono hblames⟩
          cases hserves'.phase with
          | configured hconfigured' _ _ _ =>
              rw [hkept, hconfigured] at hconfigured'
              cases hconfigured'
          | running _ hrunning _ _ => rw [houtput] at hrunning; cases hrunning
          | ended _ _ _ hdone => exact .inl hdone
  | _ => exact h

/-- **No event gives the caller anything to report that may not be reported.** -/
theorem Tick.excused (htick : Tick e q a n event e' n') (hserves : e.Serves q a n)
    (hcancelled : errs .cancelled) (hoverlooked : e.Overlooks event → ∀ err, errs err)
    (h : n.Excused (n.Blames errs)) (hact : e.activity.Excused (n.Blames errs)) :
    e'.activity.Excused (n'.Blames errs) := by
  have hblames : ∀ err, n.Blames errs err → n'.Blames errs err := fun _ => htick.blames
  cases htick with
  | worker _ _ _ hshift _ => rw [hshift.activity]; exact hact.mono hblames
  | cancel _ hshift => rw [hshift.activity]; exact hact.mono hblames
  | elsewhere _ hshift => rw [hshift.activity]; exact hact
  | wait _ _ _ hshift => rw [hshift.activity]; exact excused_begun hact
  | take hreads _ _ hshift =>
      rw [hshift.activity]
      exact excused_afterRead (hact.mono hblames) hreads (by simp)
  | again hreads _ hshift => rw [hshift.activity]; exact excused_afterRead hact hreads (by simp)
  | @fail waiting err hreads hwhy hshift herr =>
      rw [hshift.activity]
      refine excused_afterRead hact hreads ?_
      rintro _ ⟨⟩
      have hc : n.cancelled = true := by
        by_contra hcalm
        have hcalm' : n.cancelled = false := by simpa using hcalm
        exact hserves.no_failed_read (h.unfailed hcalm') hcalm' hreads hwhy
      refine ⟨hc, ?_⟩
      rcases herr with rfl | ⟨rfl, rfl, c, hroot, hslot, hgone⟩
      · exact hcancelled
      · have hstarted : e.started = [q] := by
          have hattends := hserves.attends
          rcases Activity.reads_cases hreads with heq | ⟨rows, heq⟩
          · rw [heq] at hattends
            exact hattends.1
          · rw [heq] at hattends
            exact hattends.1
        exact hoverlooked ⟨rfl, hreads, q, _, c, hserves.output_of_started hstarted,
          hserves.query, hc, hroot, hslot, hgone⟩ err
  | stop hact' hshift =>
      rw [hact'] at hact
      rw [hshift.activity]
      exact hact
  | drain hact' _ hshift =>
      rw [hact'] at hact
      rw [hshift.activity]
      have hpurpose : (Activity.draining _ _).Excused _ := hact.mono hblames
      exact ⟨hpurpose, Joined.excused_none⟩
  | join hact' ho hshift =>
      have hattends := hserves.attends
      rw [hact'] at hact hattends
      rw [hshift.activity]
      obtain ⟨m, hjoins⟩ := hattends
      obtain ⟨-, rfl, -, -⟩ := hserves.next_joined hjoins
      obtain ⟨w, hw, hlife⟩ := hserves.done_of_outcome ho
      exact ⟨hact.1, hact.2.add (h _ w _ hw (by rw [hlife]; rfl))⟩
  | finish hact' _ _ _ _ _ _ _ _ _ _ hanswer _ =>
      rw [hact'] at hact
      have hdone : (Activity.joining _ _ [] _).Excused _ := hact.mono hblames
      rw [hanswer]
      exact excused_joinedResult hdone.1 hdone.2

/-- A state in which the operators were spared is followed by one. -/
theorem Serves.spared_step (hserves : e.Serves q a n) (hstep : e.step event = some e')
    (hcancelled : errs .cancelled) (hoverlooked : e.Overlooks event → ∀ err, errs err)
    (h : Spared n errs) : ∃ n', e'.Serves q a n' ∧ Spared n' errs ∧
      (e.activity.Excused (n.Blames errs) → e'.activity.Excused (n'.Blames errs)) := by
  obtain ⟨n', htick⟩ := step_tick hserves hstep
  have hserves' := htick.serves hserves
  exact ⟨n', hserves', htick.spared hserves hcancelled hoverlooked h hserves',
    htick.excused hserves hcancelled hoverlooked h.excused⟩

theorem Serves.spared_call {r : Request} (hserves : e.Serves q a n)
    (hcall : e.act (.call r) = some e') (h : Spared n errs) :
    ∃ n', e'.Serves q a n' ∧ Spared n' errs ∧ e'.activity.Excused (n'.Blames errs) := by
  obtain rfl := act_call hcall
  obtain ⟨n', hserves', rfl | rfl⟩ := hserves.call_cases r
  · exact ⟨_, hserves', h, excused_begin e r⟩
  · exact ⟨_, hserves', h.cancel, excused_begin e r⟩

theorem Session.after (h : Session e₀ a e) {events : List Event} (hrun : e.after events = some e') :
    Session e₀ a e' :=
  after_keeps h (fun event _ _ _ hbefore hstep => hbefore.act (.event event) hstep) hrun

theorem Session.spared (hrest : e₀.AtRest) (ha : p.assemble cat = .ok a)
    (hfine : ¬ p.Crashes cat) (h : Session e₀ a e) :
    ∃ n, e.Serves e₀.queries.length a n ∧ Spared n fun _ => True := by
  induction h with
  | configured => exact ⟨_, serves_configure hrest ha, spared_fresh ha hfine⟩
  | act α hbefore hact ih =>
      obtain ⟨n, hserves, hspared⟩ := ih
      cases α with
      | event event =>
          obtain ⟨n', hserves', hspared', -⟩ :=
            hserves.spared_step hact trivial (fun _ _ => trivial) hspared
          exact ⟨n', hserves', hspared'⟩
      | call r =>
          obtain ⟨n', hserves', hspared', -⟩ := hserves.spared_call hact hspared
          exact ⟨n', hserves', hspared'⟩

/-- Operators are spared while nobody overlooks a cancellation, and so is the caller. -/
theorem Heeds.spared (h : Heeds e e') (hserves : e.Serves q a n) (hspared : Spared n errs)
    (hcancelled : errs .cancelled) : ∃ n', e'.Serves q a n' ∧ Spared n' errs ∧
      (e.activity.Excused (n.Blames errs) → e'.activity.Excused (n'.Blames errs)) := by
  induction h with
  | refl => exact ⟨n, hserves, hspared, id⟩
  | event _ hheeds hstep ih =>
      obtain ⟨n₁, hserves₁, hspared₁, hact₁⟩ := ih
      obtain ⟨n₂, hserves₂, hspared₂, hact₂⟩ :=
        hserves₁.spared_step hstep hcancelled (fun hover => absurd hover hheeds) hspared₁
      exact ⟨n₂, hserves₂, hspared₂, fun h => hact₂ (hact₁ h)⟩
  | call _ hcall ih =>
      obtain ⟨n₁, hserves₁, hspared₁, -⟩ := ih
      obtain ⟨n₂, hserves₂, hspared₂, hact₂⟩ := hserves₁.spared_call hcall hspared₁
      exact ⟨n₂, hserves₂, hspared₂, fun _ => hact₂⟩

/-- **Nothing fails before a cancellation, and after it only those fail who overlook it.**

An executor at rest is given a query whose plan yields rows.  Whatever is asked of it, whenever
somebody cancels and in whatever order the steps happen, no worker crashes, no worker fails unless
the query was cancelled, and no call answers a crash or, unless the query was cancelled, the
failure of a channel.  In a run in which nobody overlooks a cancellation, the only failure of a
worker and the only failure of a channel that a call answers is the cancellation. -/
theorem failures_follow_cancellation {e₀ : Executor} {p : Plan} {cat : Catalog} {a : Assembly}
    (hrest : e₀.AtRest) (ha : p.assemble cat = .ok a) (hfine : ¬ p.Crashes cat) :
    (∀ e, Session e₀ a e → ∃ n, e.queries[e₀.queries.length]? = some ⟨n, a.output⟩ ∧
      ∀ (k : Nat) (w : Worker) (o : Outcome), n.workers[k]? = some w → w.life.ended? = some o →
        o = .ok ∨ n.cancelled = true ∧ ∃ err, o = .failed err) ∧
    (∀ e r e₁ events e' ans, Session e₀ a e → e.act (.call r) = some e₁ →
      e₁.after events = some e' → e'.activity = .idle ans → (∀ d, ans ≠ .crashed d) ∧
        ∀ err, ans = .failed (.channel err) →
          ∃ n, e'.queries[e₀.queries.length]? = some ⟨n, a.output⟩ ∧ n.cancelled = true) ∧
    (∀ e, Heeds (e₀.configure a) e → ∃ n, e.queries[e₀.queries.length]? = some ⟨n, a.output⟩ ∧
      ∀ (k : Nat) (w : Worker) (o : Outcome), n.workers[k]? = some w → w.life.ended? = some o →
        o = .ok ∨ n.cancelled = true ∧ o = .failed .cancelled) ∧
    ∀ e r e₁ e' ans, Heeds (e₀.configure a) e → e.act (.call r) = some e₁ → Heeds e₁ e' →
      e'.activity = .idle ans → (∀ d, ans ≠ .crashed d) ∧
        ∀ err, ans = .failed (.channel err) → err = .cancelled := by
  have hserves₀ := serves_configure hrest ha
  have hfresh : Spared (Network.ofAssembly a) fun err => err = .cancelled :=
    spared_fresh ha hfine
  refine ⟨?_, ?_, ?_, ?_⟩
  · intro e hsession
    obtain ⟨n, hserves, hspared⟩ := hsession.spared hrest ha hfine
    refine ⟨n, hserves.query, fun k w o hw ho => ?_⟩
    rcases hspared.excused k w o hw ho with hok | ⟨err, ⟨hcancelled, -⟩, rfl⟩
    · exact .inl hok
    · exact .inr ⟨hcancelled, err, rfl⟩
  · intro e r e₁ events e' ans hsession hcall hrun hans
    obtain ⟨n, hserves, hspared⟩ := hsession.spared hrest ha hfine
    obtain ⟨n₁, hserves₁, hspared₁, hact₁⟩ := hserves.spared_call hcall hspared
    obtain ⟨n', hserves', -, hact'⟩ := hserves₁.run
      (P := fun e n => Spared n (fun _ => True) ∧ e.activity.Excused (n.Blames fun _ => True))
      ⟨hspared₁, hact₁⟩
      (fun event _ _ _ _ _ hserves h htick =>
        ⟨htick.spared hserves trivial (fun _ _ => trivial) h.1 (htick.serves hserves),
          htick.excused hserves trivial (fun _ _ => trivial) h.1.excused h.2⟩) hrun
    rw [hans] at hact'
    refine ⟨?_, ?_⟩
    · rintro d rfl
      exact hact'
    · rintro err rfl
      exact ⟨n', hserves'.query, hact'.1⟩
  · intro e hheeds
    obtain ⟨n, hserves, hspared, -⟩ := hheeds.spared hserves₀ hfresh rfl
    refine ⟨n, hserves.query, fun k w o hw ho => ?_⟩
    rcases hspared.excused k w o hw ho with hok | ⟨err, ⟨hcancelled, rfl⟩, rfl⟩
    · exact .inl hok
    · exact .inr ⟨hcancelled, rfl⟩
  · intro e r e₁ e' ans hheeds hcall hheeds' hans
    obtain ⟨n, hserves, hspared, -⟩ := hheeds.spared hserves₀ hfresh rfl
    obtain ⟨n₁, hserves₁, hspared₁, hact₁⟩ := hserves.spared_call hcall hspared
    obtain ⟨n', -, -, hact'⟩ := hheeds'.spared hserves₁ hspared₁ rfl
    have hact := hact' hact₁
    rw [hans] at hact
    refine ⟨?_, ?_⟩
    · rintro d rfl
      exact hact
    · rintro err rfl
      exact hact.2

end Caller

/-! ### A query that is closed early -/

/-- Two rows, and an operator that passes all rows on. -/
def twoRows : Plan :=
  (((Plan.empty.addNode (.values [] [.row [], .row []])).addNode
    (.filter (.literal (.bool true)))).tryEdge 1 0).1

def twoRowsAssembly : Assembly :=
  ⟨[⟨0, .values [.row [], .row []], [], 0⟩,
    ⟨1, .filter ⟨.literal (.bool true), .constant (.bool true)⟩, [0], 1⟩], 1, []⟩

theorem twoRows_assemble : twoRows.assemble (.empty "") = .ok twoRowsAssembly := rfl

theorem twoRows_not_crashes : ¬ twoRows.Crashes (.empty "") := by
  have hrows : twoRows.Yields (.empty "") 0 [[], []] := .values rfl rfl rfl
  have hall : twoRows.Yields (.empty "") 1 [[], []] := .filter rfl rfl rfl hrows rfl
  exact Plan.Answers.not_crashes ⟨1, rfl, hall⟩

/-- The first operator is about to send its second row when the query is closed. -/
def sendingSecond : List Event :=
  [.worker 0 0 .proceed, .worker 0 0 .proceed, .worker 0 0 .proceed]

/-- Closing cancels the query.  The second operator notices that and goes, and the first, which
still waits, notices only that the second has gone. -/
def overlooking : List Event :=
  [.caller false, .caller false, .worker 0 1 .proceed, .worker 0 1 (.dropSource 0),
    .worker 0 1 .dropSink, .worker 0 1 .proceed, .worker 0 0 .proceed, .worker 0 0 .dropSink,
    .worker 0 0 .proceed, .caller false, .caller false, .caller false]

theorem overlooking_run : ∃ e e₁ e', Session new twoRowsAssembly e ∧
    e.act (.call .close) = some e₁ ∧ e₁.after overlooking = some e' ∧
    e'.activity = .idle (.failed (.channel .consumerClosed)) := by
  have hstart : (new.configure twoRowsAssembly).act (.call .start) =
      some ((new.configure twoRowsAssembly).begin .start) := rfl
  have hall : ((((new.configure twoRowsAssembly).begin .start).after sendingSecond).bind fun e =>
      (e.act (.call .close)).bind fun e => e.after overlooking).map Executor.activity =
      some (.idle (.failed (.channel .consumerClosed))) := rfl
  obtain ⟨e', hrun, hans⟩ := Option.map_eq_some_iff.mp hall
  obtain ⟨e, hbefore, hrest⟩ := Option.bind_eq_some_iff.mp hrun
  obtain ⟨e₁, hclose, hafter⟩ := Option.bind_eq_some_iff.mp hrest
  exact ⟨e, e₁, e', (Session.configured.act _ hstart).after hbefore, hclose, hafter,
    hans⟩

/-- Two rows behind a filter: when closing the query blames a worker the query was cancelled, and
no call blames anybody as long as cancellations are heeded. -/
theorem failures_follow_cancellation_of_two_rows :
    (∃ (e' : Executor) (n : Network), e'.activity = .idle (.failed (.channel .consumerClosed)) ∧
      e'.queries[0]? = some ⟨n, 1⟩ ∧ n.cancelled = true) ∧
    ∀ e r e₁ e' err, Heeds (new.configure twoRowsAssembly) e → e.act (.call r) = some e₁ →
      Heeds e₁ e' → e'.activity = .idle (.failed (.channel err)) → err = .cancelled := by
  obtain ⟨-, hcall, -, hheeded⟩ :=
    failures_follow_cancellation new_atRest twoRows_assemble twoRows_not_crashes
  refine ⟨?_, ?_⟩
  · obtain ⟨e, e₁, e', hsession, hclose, hrun, hans⟩ := overlooking_run
    obtain ⟨n, hn, hcancelled⟩ := (hcall e _ e₁ _ e' _ hsession hclose hrun hans).2 _ rfl
    exact ⟨e', n, hans, hn, hcancelled⟩
  · intro e r e₁ e' err hheeds hcalled hheeds' hans
    exact (hheeded e r e₁ e' _ hheeds hcalled hheeds' hans).2 err rfl

/-- **A query that is closed early may blame a worker that has done nothing wrong.**  The plan
yields rows everywhere and nobody disturbs its query but the one who closes it, and yet closing
answers that a worker failed. -/
theorem close_may_blame_worker :
    ∃ a e e₁ e', twoRows.assemble (.empty "") = .ok a ∧ ¬ twoRows.Crashes (.empty "") ∧
      Session new a e ∧ e.act (.call .close) = some e₁ ∧ e₁.after overlooking = some e' ∧
      e'.activity = .idle (.failed (.channel .consumerClosed)) := by
  obtain ⟨e, e₁, e', hsession, hclose, hrun, hans⟩ := overlooking_run
  exact ⟨twoRowsAssembly, e, e₁, e', twoRows_assemble, twoRows_not_crashes, hsession, hclose, hrun,
    hans⟩

end Executor

end StreamQuery
