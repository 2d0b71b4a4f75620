/-
Why a call on a channel fails, and why it waits.

Three things can go wrong around a channel, one by one or together, and also while a call
waits: the producer lets go of its half, the consumer does, and all is cancelled.  A call
that fails names one of them, and it has really happened.  A call that waits waits only as
long as none of them has happened and its turn has not come.

An act sees the state of the channel and not what happened before, so the history is first
brought into the state: `Exchange.Told` says that a half is gone, or all is cancelled, just
if something that happened made it so.  After that each error is a matter of one act.
-/
import StreamQuery.Proofs.Channel.Exchange

namespace StreamQuery

open Session

namespace Exchange

/-- The producer has let go of its half.  It dropped it, or it closed the stream, which uses the
half up whether it succeeds or fails. -/
def SinkGone (acts : List Act) (log : List Entry) : Prop :=
  .dropSink ∈ acts ∨ ∃ r, .sent .endOfStream r ∈ log

/-- What the state says of both halves and of the cancellation is what has happened. -/
structure Told (e : Exchange) (acts : List Act) (log : List Entry) : Prop where
  sink : e.line.sink = .gone ↔ SinkGone acts log
  producer : e.line.channel.producer = false ↔ SinkGone acts log
  source : e.line.source = .gone ↔ .dropSource ∈ acts
  consumer : e.line.channel.consumer = false ↔ .dropSource ∈ acts
  cancelled : e.cancelled = true ↔ .cancel ∈ acts

variable {e e' : Exchange} {α : Act} {acts : List Act} {log new : List Entry}

theorem told_new : Told .new [] [] where
  sink := by simp [SinkGone, Exchange.new]
  producer := by simp [SinkGone, Exchange.new, Channel.new]
  source := by simp [Exchange.new]
  consumer := by simp [Exchange.new, Channel.new]
  cancelled := by simp [Exchange.new]

/-! ### The history goes on -/

theorem sinkGone_append : SinkGone (acts ++ [α]) (log ++ new) ↔
    SinkGone acts log ∨ α = .dropSink ∨ ∃ r, .sent .endOfStream r ∈ new := by
  simp only [SinkGone, List.mem_append, List.mem_singleton, eq_comm (a := Act.dropSink), exists_or]
  exact or_or_or_comm

/-- An act that begins, ends or awaits a call. -/
def Act.IsCall : Act → Prop
  | .dropSink | .dropSource | .cancel => False
  | _ => True

theorem Told.call (h : Told e acts log) (hα : α.IsCall)
    (hsink : e'.line.sink = .gone ↔ e.line.sink = .gone ∨ ∃ r, .sent .endOfStream r ∈ new)
    (hproducer : e'.line.channel.producer = false ↔
      e.line.channel.producer = false ∨ ∃ r, .sent .endOfStream r ∈ new)
    (hsource : e'.line.source = .gone ↔ e.line.source = .gone)
    (hconsumer : e'.line.channel.consumer = e.line.channel.consumer)
    (hcancelled : e'.cancelled = e.cancelled) : Told e' (acts ++ [α]) (log ++ new) := by
  have hdropSink : α ≠ .dropSink := by rintro rfl; exact hα
  have hdropSource : Act.dropSource ≠ α := by rintro rfl; exact hα
  have hcancel : Act.cancel ≠ α := by rintro rfl; exact hα
  refine ⟨?_, ?_, ?_, ?_, ?_⟩
  · rw [hsink, sinkGone_append, h.sink, or_iff_right hdropSink]
  · rw [hproducer, sinkGone_append, h.producer, or_iff_right hdropSink]
  · rw [hsource, h.source, List.mem_append, List.mem_singleton, or_iff_left hdropSource]
  · rw [hconsumer, h.consumer, List.mem_append, List.mem_singleton, or_iff_left hdropSource]
  · rw [hcancelled, h.cancelled, List.mem_append, List.mem_singleton, or_iff_left hcancel]

/-- A call that tells nothing of the producer half leaves it as it was. -/
theorem Told.call_quiet (h : Told e acts log) (hα : α.IsCall)
    (hsent : ∀ r, .sent .endOfStream r ∉ new)
    (hsink : e'.line.sink = .gone ↔ e.line.sink = .gone)
    (hproducer : e'.line.channel.producer = e.line.channel.producer)
    (hsource : e'.line.source = .gone ↔ e.line.source = .gone)
    (hconsumer : e'.line.channel.consumer = e.line.channel.consumer)
    (hcancelled : e'.cancelled = e.cancelled) : Told e' (acts ++ [α]) (log ++ new) := by
  have hnone : ¬ ∃ r, .sent .endOfStream r ∈ new := fun ⟨r, hr⟩ => hsent r hr
  refine h.call hα ?_ ?_ hsource hconsumer hcancelled
  · rw [hsink, or_iff_left hnone]
  · rw [hproducer, or_iff_left hnone]

/-- A put that ends uses the producer half up if it was to close. -/
theorem Told.call_put (h : Told e acts log) (hα : α.IsCall) (hsink : e.line.sink ≠ .gone)
    {c : Channel} (hproducer : c.producer = e.line.channel.producer)
    (hconsumer : c.consumer = e.line.channel.consumer) {item : Item}
    (hsent : (∃ r, .sent .endOfStream r ∈ new) ↔ item = .endOfStream) :
    Told { e with line := e.line.afterPut c item } (acts ++ [α]) (log ++ new) := by
  unfold Line.afterPut
  cases item with
  | row row =>
      have hnone : ¬ ∃ r, .sent .endOfStream r ∈ new := by rw [hsent]; simp
      exact h.call hα (by simp [Item.isEnd, hsink, hnone])
        (by simp only [or_iff_left hnone, ← hproducer]; rfl) .rfl hconsumer rfl
  | endOfStream =>
      exact h.call hα (by simp [Item.isEnd, hsent])
        (by simp [Item.isEnd, Channel.dropProducer, hsent]) .rfl hconsumer rfl

theorem Told.step (h : Told e acts log) (hstep : e.step α = some (e', new)) :
    Told e' (acts ++ [α]) (log ++ new) := by
  cases α with
  | offer item =>
      simp only [Exchange.step] at hstep
      split at hstep
      · rename_i hsink
        split at hstep
        · cases hstep
          exact h.call_put (by trivial) (by rw [hsink]; simp) rfl rfl (by simp [eq_comm])
        · cases hstep
          exact h.call_quiet (by trivial) (by simp) (by rw [hsink]; simp) rfl .rfl rfl rfl
      · cases hstep
  | put =>
      simp only [Exchange.step] at hstep
      split at hstep
      · rename_i item hsink
        split at hstep
        · rename_i r c hput
          cases hstep
          have hgone : e.line.sink ≠ .gone := by rw [hsink]; simp
          rcases Channel.put?_cases hput with ⟨-, -, rfl⟩ | ⟨-, -, -, rfl⟩
          · exact h.call_put (by trivial) hgone rfl rfl (by simp [eq_comm])
          · refine h.call_put (by trivial) hgone ?_ ?_ (by simp [eq_comm])
            · rfl
            · rfl
        · cases hstep
      · cases hstep
  | giveUpPut =>
      simp only [Exchange.step] at hstep
      split at hstep
      · rename_i item hsink
        split at hstep
        · cases hstep
          exact h.call_put (by trivial) (by rw [hsink]; simp) rfl rfl (by simp [eq_comm])
        · cases hstep
      · cases hstep
  | ask =>
      simp only [Exchange.step] at hstep
      split at hstep
      · rename_i hsource
        split at hstep
        · cases hstep
          exact h.call_quiet (by trivial) (by simp) .rfl rfl .rfl rfl rfl
        · cases hstep
          exact h.call_quiet (by trivial) (by simp) .rfl rfl (by rw [hsource]; simp) rfl rfl
      · cases hstep
  | take =>
      simp only [Exchange.step] at hstep
      split at hstep
      · rename_i hsource
        split at hstep
        · rename_i r c htake
          cases hstep
          rcases Channel.take?_cases htake with ⟨-, -, -, rfl⟩ | ⟨item, -, -, rfl⟩
          · exact h.call_quiet (by trivial) (by simp) .rfl rfl (by rw [hsource]; simp) rfl rfl
          · exact h.call_quiet (by trivial) (by simp) .rfl rfl (by rw [hsource]; simp) rfl rfl
        · cases hstep
      · cases hstep
  | giveUpTake =>
      simp only [Exchange.step] at hstep
      split at hstep
      · rename_i hsource
        split at hstep
        · cases hstep
          exact h.call_quiet (by trivial) (by simp) .rfl rfl (by rw [hsource]; simp) rfl rfl
        · cases hstep
      · cases hstep
  | dropSink =>
      simp only [Exchange.step] at hstep
      split at hstep
      · cases hstep
        refine ⟨?_, ?_, ?_, ?_, ?_⟩
        · rw [sinkGone_append]
          simp
        · rw [sinkGone_append]
          simp [Channel.dropProducer]
        · simpa using h.source
        · simpa [Channel.dropProducer] using h.consumer
        · simpa using h.cancelled
      · cases hstep
  | dropSource =>
      simp only [Exchange.step] at hstep
      split at hstep
      · cases hstep
        refine ⟨?_, ?_, ?_, ?_, ?_⟩
        · rw [sinkGone_append]
          simpa using h.sink
        · rw [sinkGone_append]
          simpa [Channel.dropConsumer] using h.producer
        · simp
        · simp [Channel.dropConsumer]
        · simpa using h.cancelled
      · cases hstep
  | cancel =>
      cases hstep
      refine ⟨?_, ?_, ?_, ?_, ?_⟩
      · rw [sinkGone_append]
        simpa using h.sink
      · rw [sinkGone_append]
        simpa using h.producer
      · simpa using h.source
      · simpa using h.consumer
      · simp

/-- After every run the state tells what has happened. -/
theorem told_of_run (hrun : Exchange.new.run acts = some (e, log)) : Told e acts log :=
  run_keeps (P := Told) (fun _ _ _ _ _ _ h hα => h.step hα) [] hrun told_new

/-! ### What one act says of its causes -/

/-- A put fails by the cancellation or by finding the consumer half gone. -/
theorem cause_of_failed_put (hstep : e.step α = some (e', new)) {item : Item} {err : ChannelError}
    (hfailed : .sent item (.error err) ∈ new) :
    err = .cancelled ∧ e.cancelled = true ∨
      err = .consumerClosed ∧ e.line.channel.consumer = false := by
  cases α with
  | offer item' =>
      simp only [step] at hstep
      split at hstep
      · split at hstep
        · rename_i err' hbegin
          cases hstep
          obtain ⟨hcancelled, rfl⟩ := Channel.beginPut_eq_some hbegin
          simp only [List.mem_cons, reduceCtorEq, Entry.sent.injEq, Except.error.injEq,
            List.not_mem_nil, or_false, false_or] at hfailed
          exact .inl ⟨hfailed.2, hcancelled⟩
        · cases hstep
          simp at hfailed
      · cases hstep
  | put =>
      simp only [step] at hstep
      split at hstep
      · split at hstep
        · rename_i hput
          cases hstep
          rcases Channel.put?_cases hput with ⟨hgone, rfl, -⟩ | ⟨-, -, rfl, -⟩
          · simp only [List.mem_singleton, Entry.sent.injEq, Except.error.injEq] at hfailed
            exact .inr ⟨hfailed.2, hgone⟩
          · simp at hfailed
        · cases hstep
      · cases hstep
  | giveUpPut =>
      simp only [step] at hstep
      split at hstep
      · split at hstep
        · rename_i hcancelled
          cases hstep
          simp only [List.mem_singleton, Entry.sent.injEq, Except.error.injEq] at hfailed
          exact .inl ⟨hfailed.2, hcancelled⟩
        · cases hstep
      · cases hstep
  | _ =>
      simp only [step] at hstep
      grind

/-- A receive fails by the cancellation, or by finding the slot empty and the producer half gone
after having waited. -/
theorem cause_of_failed_take (hstep : e.step α = some (e', new)) {err : ChannelError}
    (hfailed : .received (.error err) ∈ new) :
    err = .cancelled ∧ e.cancelled = true ∨
      err = .producerStopped ∧ e.line.source = .blocked ∧ e.line.channel.slot = none ∧
        e.line.channel.producer = false := by
  cases α with
  | ask =>
      simp only [step] at hstep
      split at hstep
      · rcases e.line.channel.beginTake_cases e.cancelled with
          ⟨-, hbegin⟩ | ⟨-, hcancelled, hbegin⟩ | ⟨-, -, hbegin⟩
        · rw [hbegin] at hstep
          cases hstep
          simp at hfailed
        · rw [hbegin] at hstep
          cases hstep
          exact .inl ⟨by simpa using hfailed, hcancelled⟩
        · rw [hbegin] at hstep
          cases hstep
          simp at hfailed
      · cases hstep
  | take =>
      simp only [step] at hstep
      split at hstep
      · rename_i hsource
        split at hstep
        · rename_i htake
          cases hstep
          rcases Channel.take?_cases htake with ⟨hslot, hgone, rfl, -⟩ | ⟨item, -, rfl, -⟩
          · exact .inr ⟨by simpa using hfailed, hsource, hslot, hgone⟩
          · simp at hfailed
        · cases hstep
      · cases hstep
  | giveUpTake =>
      simp only [step] at hstep
      split at hstep
      · split at hstep
        · rename_i hcancelled
          cases hstep
          exact .inl ⟨by simpa using hfailed, hcancelled⟩
        · cases hstep
      · cases hstep
  | _ =>
      simp only [step] at hstep
      grind

/-- A receive that fails for want of a producer has received everything, and no closing mark was
put. -/
theorem Balanced.nothing_left (h : Balanced e log) (hsource : e.line.source = .blocked)
    (hslot : e.line.channel.slot = none) :
    receivedRows log = acceptedRows log ∧ .sent .endOfStream (.ok ()) ∉ log := by
  have hended : ended log = false := by rw [h.ended_eq, h.waits hsource]
  have haccepted : accepted log = (receivedRows log).map .row := by
    rw [h.accepted_eq, hslot, taken, hended]
    simp
  refine ⟨?_, ?_⟩
  · rw [h.rows_eq, Channel.held_of_empty hslot, List.append_nil]
  · intro hclosed
    have hmem : .endOfStream ∈ accepted log := List.mem_filterMap.mpr ⟨_, hclosed, rfl⟩
    rw [haccepted] at hmem
    simp at hmem

/-- A row that was accepted and not received lies in the slot. -/
theorem Balanced.slot_of_row (h : Balanced e log) {r : Row}
    (hrow : acceptedRows log = receivedRows log ++ [r]) :
    e.line.channel.slot = some (.row r) := by
  rw [h.rows_eq, List.append_cancel_left_eq] at hrow
  unfold Channel.held at hrow
  split at hrow
  · rename_i hslot
    cases hrow
    exact hslot
  · cases hrow

theorem take_of_slot (hsource : e.line.source = .blocked) {item : Item}
    (hslot : e.line.channel.slot = some item) :
    ∃ e', e.step .take = some (e', [.received (.ok item)]) := by
  simp only [step, hsource, Channel.take?, hslot]
  exact ⟨_, rfl⟩

/-- A put that has begun goes on waiting just as long as the slot is taken, somebody is there to
empty it, and nothing is cancelled. -/
theorem put_waits_iff {item : Item} (hsink : e.line.sink = .blocked item) :
    (e.step .put = none ∧ e.step .giveUpPut = none) ↔
      e.line.channel.consumer ≠ false ∧ e.cancelled ≠ true ∧ e.line.channel.slot ≠ none := by
  simp only [step, hsink, Channel.put?]
  cases e.line.channel.consumer <;> cases e.cancelled <;> cases e.line.channel.slot <;> simp

/-- A receive that has begun goes on waiting just as long as the slot is empty, somebody is there to
fill it, and nothing is cancelled. -/
theorem take_waits_iff (hsource : e.line.source = .blocked) :
    (e.step .take = none ∧ e.step .giveUpTake = none) ↔
      e.line.channel.producer ≠ false ∧ e.cancelled ≠ true ∧ e.line.channel.slot = none := by
  simp only [step, hsource, Channel.take?]
  cases e.line.channel.producer <;> cases e.cancelled <;> cases e.line.channel.slot <;> simp

/-! ### Whole runs -/

/-- **Whoever fails on a channel names what has really happened**, and nobody waits without need.

A put fails only after a cancellation, or after the consumer half was dropped.  A receive fails only
after a cancellation, or after the producer half went without closing the stream, and then every row
that was accepted has been received: a row that lies in the slot is still delivered, whatever has
become of the producer.  A put waits just as long as both halves are held, nothing is cancelled
and the slot is taken, a receive just as long as that holds with the slot empty. -/
theorem failures_name_their_cause (hrun : Exchange.new.run acts = some (e, log)) :
    (∀ (α : Act) (e' : Exchange) (new : List Entry) (item : Item) (err : ChannelError),
      e.step α = some (e', new) → .sent item (.error err) ∈ new →
        err = .cancelled ∧ .cancel ∈ acts ∨ err = .consumerClosed ∧ .dropSource ∈ acts) ∧
    (∀ (α : Act) (e' : Exchange) (new : List Entry) (err : ChannelError),
      e.step α = some (e', new) → .received (.error err) ∈ new →
        err = .cancelled ∧ .cancel ∈ acts ∨
        err = .producerStopped ∧ SinkGone acts log ∧ .sent .endOfStream (.ok ()) ∉ log ∧
          receivedRows log = acceptedRows log) ∧
    (∀ r, acceptedRows log = receivedRows log ++ [r] → e.line.source = .blocked →
      ∃ e', e.step .take = some (e', [.received (.ok (.row r))])) ∧
    (∀ item, e.line.sink = .blocked item →
      ((e.step .put = none ∧ e.step .giveUpPut = none) ↔
        ¬ SinkGone acts log ∧ .dropSource ∉ acts ∧ .cancel ∉ acts ∧
          e.line.channel.slot ≠ none)) ∧
    (e.line.source = .blocked →
      ((e.step .take = none ∧ e.step .giveUpTake = none) ↔
        ¬ SinkGone acts log ∧ .dropSource ∉ acts ∧ .cancel ∉ acts ∧
          e.line.channel.slot = none)) := by
  have htold := told_of_run hrun
  have hb := balanced_of_run hrun
  refine ⟨?_, ?_, ?_, ?_, ?_⟩
  · intro α e' new item err hstep hfailed
    exact (cause_of_failed_put hstep hfailed).imp
      (And.imp_right htold.cancelled.mp) (And.imp_right htold.consumer.mp)
  · intro α e' new err hstep hfailed
    rcases cause_of_failed_take hstep hfailed with
      ⟨rfl, hcancelled⟩ | ⟨rfl, hsource, hslot, hgone⟩
    · exact .inl ⟨rfl, htold.cancelled.mp hcancelled⟩
    · obtain ⟨hall, hopen⟩ := hb.nothing_left hsource hslot
      exact .inr ⟨rfl, htold.producer.mp hgone, hopen, hall⟩
  · intro r hrow hsource
    exact take_of_slot hsource (hb.slot_of_row hrow)
  · intro item hsink
    have hheld : ¬ SinkGone acts log := by rw [← htold.sink, hsink]; simp
    rw [put_waits_iff hsink, ne_eq, htold.consumer, ne_eq, htold.cancelled,
      and_iff_right hheld]
  · intro hsource
    have hheld : .dropSource ∉ acts := by rw [← htold.source, hsource]; simp
    rw [take_waits_iff hsource, ne_eq, htold.producer, ne_eq, htold.cancelled,
      and_iff_right hheld]

/-- The producer leaves a row behind and goes.  The consumer gets the row, asks again, and learns
that the producer is gone. -/
theorem failures_name_their_cause_of_left_row :
    ∃ e log e', Exchange.new.run [.offer (.row []), .put, .dropSink, .ask, .take, .ask]
        = some (e, log) ∧
      e.step .take = some (e', [.received (.error .producerStopped)]) ∧
      receivedRows log = [[]] ∧ receivedRows log = acceptedRows log := by
  have hrun : Exchange.new.run [.offer (.row []), .put, .dropSink, .ask, .take, .ask]
      = some (_, _) := rfl
  have hcause := (failures_name_their_cause hrun).2.1 .take _ _ .producerStopped rfl (by simp)
  refine ⟨_, _, _, hrun, rfl, rfl, ?_⟩
  rcases hcause with ⟨hno, -⟩ | ⟨-, -, -, hall⟩
  · cases hno
  · exact hall

end Exchange

end StreamQuery
