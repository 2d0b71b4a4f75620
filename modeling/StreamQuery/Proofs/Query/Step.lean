/-
What one step of one worker can do.

`Step` says once, for a network in which the workers and channels stand to each other
as they should, everything that `Network.step` can do.  Every later argument about runs
is a case analysis of it.  There is no case for a worker that receives the closing mark
a second time: a stage does not ask again for an input that it takes for exhausted.

The other half of the file is that every step keeps the network sound, and so do the
caller's reads from the answer and a cancellation.
-/
import StreamQuery.Proofs.Query.Sound

namespace StreamQuery

namespace Network

/-! ### Looking up after a change -/

section Lookup

variable {n : Network} {k i : Nat} {w : Worker} {c : Channel}

theorem workers_setLife (hw : n.workers[k]? = some w) (life : Life) (j : Nat) :
    (n.setLife k w life).workers[j]? = if j = k then some { w with life } else n.workers[j]? := by
  have hk : k < n.workers.length := (List.getElem?_eq_some_iff.mp hw).1
  unfold setLife
  rw [List.getElem?_set]
  by_cases hj : j = k
  · subst hj
    rw [if_pos rfl, if_pos hk, if_pos rfl]
  · rw [if_neg (Ne.symm hj), if_neg hj]

theorem channels_setChannel (hc : n.channels[i]? = some c) (c' : Channel) (j : Nat) :
    (n.setChannel i c').channels[j]? = if j = i then some c' else n.channels[j]? := by
  have hi : i < n.channels.length := (List.getElem?_eq_some_iff.mp hc).1
  unfold setChannel
  rw [List.getElem?_set]
  by_cases hj : j = i
  · subst hj
    rw [if_pos rfl, if_pos hi, if_pos rfl]
  · rw [if_neg (Ne.symm hj), if_neg hj]

/-- A worker and a channel have changed. -/
theorem workers_update (hw : n.workers[k]? = some w) (i : Nat) (c' : Channel) (life : Life)
    (j : Nat) : ((n.setChannel i c').setLife k w life).workers[j]?
      = if j = k then some { w with life } else n.workers[j]? := by
  have hw' : (n.setChannel i c').workers[k]? = some w := hw
  exact workers_setLife hw' life j

theorem channels_update (hc : n.channels[i]? = some c) (c' : Channel) (k : Nat) (w : Worker)
    (life : Life) (j : Nat) : ((n.setChannel i c').setLife k w life).channels[j]?
      = if j = i then some c' else n.channels[j]? :=
  channels_setChannel hc c' j

theorem inSlot_setChannel (hc : n.channels[i]? = some c) (c' : Channel) (j : Nat) :
    (n.setChannel i c').inSlot j
      = if j = i then (if c'.slot.isSome then 1 else 0) else n.inSlot j := by
  unfold inSlot
  rw [channels_setChannel hc]
  by_cases hj : j = i
  · rw [if_pos hj, if_pos hj]
  · rw [if_neg hj, if_neg hj]

end Lookup

/-! ### Everything a worker can do -/

/-- Why the operator of a worker that is in a stage ends otherwise than by closing its output. -/
inductive Halts (n : Network) (k : Nat) (w : Worker) (s : Stage) : Outcome → Prop where
  | crashed {d : RunDefect} (hwant : s.want = .fail d) : Halts n k w s (.crashed d)
  | cancelled (h : n.cancelled = true) : Halts n k w s (.failed .cancelled)
  | consumerClosed {c : Channel} (hc : n.channels[k]? = some c) (hgone : c.consumer = false) :
      Halts n k w s (.failed .consumerClosed)
  | producerStopped {input i : Nat} {c : Channel} (hwant : s.want = .receive input)
      (hi : w.inputs[input]? = some i) (hc : n.channels[i]? = some c) (hslot : c.slot = none)
      (hgone : c.producer = false) : Halts n k w s (.failed .producerStopped)

theorem Halts.ne_ok {n : Network} {k : Nat} {w : Worker} {s : Stage} {o : Outcome}
    (h : n.Halts k w s o) : o ≠ .ok := by
  intro ho
  cases h <;> cases ho

/-- A step of worker `k`. -/
inductive Step (n : Network) (k : Nat) (w : Worker) : Network → Prop where
  /-- It begins the call that it wants. -/
  | wait {s : Stage} (hlife : w.life = .working s false) (hwant : ∀ d, s.want ≠ .fail d) :
      Step n k w (n.setLife k w (.working s true))
  | halt {s : Stage} {waiting : Bool} {o : Outcome} (hlife : w.life = .working s waiting)
      (hwhy : n.Halts k w s o) : Step n k w (n.setLife k w (.leaving o w.inputs true))
  | receive {s : Stage} {input i : Nat} {c : Channel} {item : Item}
      (hlife : w.life = .working s true) (hwant : s.want = .receive input)
      (hi : w.inputs[input]? = some i) (hc : n.channels[i]? = some c)
      (hslot : c.slot = some item) :
      Step n k w ((n.setChannel i { c with slot := none, finished := item.isEnd }).setLife k w
        (.working (s.accept item) false))
  | send {s after : Stage} {row : Row} {c : Channel} (hlife : w.life = .working s true)
      (hwant : s.want = .send row after) (hc : n.channels[k]? = some c)
      (hconsumer : c.consumer = true) (hslot : c.slot = none) :
      Step n k w ((n.setChannel k { c with slot := some (.row row) }).setLife k w
        (.working after false))
  | close {s : Stage} {c : Channel} (hlife : w.life = .working s true) (hwant : s.want = .close)
      (hc : n.channels[k]? = some c) (hconsumer : c.consumer = true) (hslot : c.slot = none) :
      Step n k w ((n.setChannel k { c with slot := some .endOfStream }).setLife k w
        (.leaving .ok w.inputs true))
  | dropSource {o : Outcome} {sources : List Nat} {sink : Bool} {i : Nat} {c : Channel}
      (hlife : w.life = .leaving o sources sink) (hi : i ∈ sources)
      (hc : n.channels[i]? = some c) :
      Step n k w ((n.setChannel i c.dropConsumer).setLife k w
        (.leaving o (sources.erase i) sink))
  | dropSink {o : Outcome} {sources : List Nat} {c : Channel}
      (hlife : w.life = .leaving o sources true) (hc : n.channels[k]? = some c) :
      Step n k w ((n.setChannel k c.dropProducer).setLife k w (.leaving o sources false))
  | finish {o : Outcome} (hlife : w.life = .leaving o [] false) : Step n k w (n.finish k w o)

section Cases

variable {n n' : Network} {output k : Nat} {w : Worker} {s : Stage}

/-- The channel that a worker asks for is there, and it is not exhausted. -/
theorem Sound.wanted_input (h : n.Sound output) (hw : n.workers[k]? = some w) {waiting : Bool}
    (hlife : w.life = .working s waiting) {input : Nat} (hwant : s.want = .receive input) :
    ∃ i c, w.inputs[input]? = some i ∧ n.channels[i]? = some c ∧ c.finished = false := by
  have hapt := h.apt k w hw
  rw [hlife] at hapt
  obtain ⟨hlt, hopen⟩ := Stage.open_of_want_receive hwant hapt.1
  obtain ⟨c, hc⟩ := h.channel_of_input hw (List.getElem_mem hlt)
  have hi : w.inputs[input]? = some w.inputs[input] := List.getElem?_eq_getElem hlt
  refine ⟨_, c, hi, hc, ?_⟩
  rw [(h.source k w input _ c hw hi hc).working s waiting hlife]
  exact hopen

theorem inputOf?_eq {input i : Nat} {c : Channel} (hi : w.inputs[input]? = some i)
    (hc : n.channels[i]? = some c) : n.inputOf? w input = some (i, c) := by
  unfold inputOf?
  rw [hi, Option.bind_eq_bind, Option.bind_some, hc]
  rfl

theorem begin_cases (h : n.Sound output) (hw : n.workers[k]? = some w)
    (hlife : w.life = .working s false) (hstep : n.begin k w s = some n') : Step n k w n' := by
  unfold begin at hstep
  cases hwant : s.want with
  | fail d =>
      simp only [hwant] at hstep
      cases hstep
      exact .halt hlife (.crashed hwant)
  | receive input =>
      simp only [hwant] at hstep
      obtain ⟨i, c, hi, hc, hopen⟩ := h.wanted_input hw hlife hwant
      rw [inputOf?_eq hi hc, Option.bind_eq_bind, Option.bind_some] at hstep
      rcases c.beginTake_cases n.cancelled with hb | ⟨-, hcancelled, hb⟩ | ⟨-, -, hb⟩
      · rw [hopen] at hb
        cases hb.1
      · simp only [hb, Life.answered, Stage.reply, hwant] at hstep
        cases hstep
        exact .halt hlife (.cancelled hcancelled)
      · simp only [hb] at hstep
        cases hstep
        exact .wait hlife (by simp [hwant])
  | send row after =>
      simp only [hwant] at hstep
      split at hstep
      · rename_i e he
        obtain ⟨hcancelled, rfl⟩ := Channel.beginPut_eq_some he
        simp only [Life.answered, Stage.reply, hwant] at hstep
        cases hstep
        exact .halt hlife (.cancelled hcancelled)
      · cases hstep
        exact .wait hlife (by simp [hwant])
  | close =>
      simp only [hwant] at hstep
      split at hstep
      · rename_i e he
        obtain ⟨hcancelled, rfl⟩ := Channel.beginPut_eq_some he
        simp only [Life.answered, Stage.reply, hwant] at hstep
        cases hstep
        exact .halt hlife (.cancelled hcancelled)
      · cases hstep
        exact .wait hlife (by simp [hwant])

theorem putItem_cases {item : Item} (hout : w.output = k)
    (hstep : n.putItem k w s item = some n') :
    ∃ c, n.channels[k]? = some c ∧
      ((c.consumer = false ∧
          n' = n.setLife k w (Life.answered w s (.failed .consumerClosed))) ∨
        (c.consumer = true ∧ c.slot = none ∧
          n' = (n.setChannel k { c with slot := some item }).setLife k w
            (Life.answered w s .done))) := by
  unfold putItem at hstep
  rw [hout] at hstep
  obtain ⟨c, hc, hput⟩ := Option.bind_eq_some_iff.mp hstep
  obtain ⟨⟨r, c'⟩, hresult, hn⟩ := Option.bind_eq_some_iff.mp hput
  refine ⟨c, hc, ?_⟩
  rcases Channel.put?_cases hresult with ⟨hgone, rfl, rfl⟩ | ⟨hconsumer, hslot, rfl, rfl⟩
  · cases hn
    exact .inl ⟨hgone, rfl⟩
  · cases hn
    exact .inr ⟨hconsumer, hslot, rfl⟩

theorem use_cases (h : n.Sound output) (hw : n.workers[k]? = some w)
    (hlife : w.life = .working s true) (hstep : n.use k w s = some n') : Step n k w n' := by
  unfold use at hstep
  cases hwant : s.want with
  | fail d =>
      simp only [hwant] at hstep
      simp at hstep
  | receive input =>
      simp only [hwant] at hstep
      obtain ⟨i, c, hi, hc, -⟩ := h.wanted_input hw hlife hwant
      rw [inputOf?_eq hi hc, Option.bind_eq_bind, Option.bind_some] at hstep
      obtain ⟨⟨r, c'⟩, htake, hn⟩ := Option.bind_eq_some_iff.mp hstep
      rcases Channel.take?_cases htake with ⟨hslot, hgone, rfl, rfl⟩ | ⟨item, hslot, rfl, rfl⟩
      · simp only [Life.answered, Stage.reply, hwant] at hn
        cases hn
        exact .halt hlife (.producerStopped hwant hi hc hslot hgone)
      · simp only [Life.answered, Stage.reply, hwant] at hn
        cases hn
        exact .receive hlife hwant hi hc hslot
  | send row after =>
      simp only [hwant] at hstep
      obtain ⟨c, hc, ⟨hgone, rfl⟩ | ⟨hconsumer, hslot, rfl⟩⟩ :=
        putItem_cases (h.writes k w hw) hstep
      · simp only [Life.answered, Stage.reply, hwant]
        exact .halt hlife (.consumerClosed hc hgone)
      · simp only [Life.answered, Stage.reply, hwant]
        exact .send hlife hwant hc hconsumer hslot
  | close =>
      simp only [hwant] at hstep
      obtain ⟨c, hc, ⟨hgone, rfl⟩ | ⟨hconsumer, hslot, rfl⟩⟩ :=
        putItem_cases (h.writes k w hw) hstep
      · simp only [Life.answered, Stage.reply, hwant]
        exact .halt hlife (.consumerClosed hc hgone)
      · simp only [Life.answered, Stage.reply, hwant]
        exact .close hlife hwant hc hconsumer hslot

/-- Every step of a sound network is one of these. -/
theorem step_cases (h : n.Sound output) {m : Move} (hstep : n.step k m = some n') :
    ∃ w, n.workers[k]? = some w ∧ Step n k w n' := by
  unfold step at hstep
  cases hw : n.workers[k]? with
  | none =>
      simp only [hw] at hstep
      simp at hstep
  | some w =>
      simp only [hw] at hstep
      refine ⟨w, rfl, ?_⟩
      have hout : w.output = k := h.writes k w hw
      split at hstep
      · rename_i s hlife
        exact begin_cases h hw hlife hstep
      · rename_i s hlife
        exact use_cases h hw hlife hstep
      · rename_i s hlife
        split at hstep
        · rename_i hcancelled
          have hwant : ∀ d, s.want ≠ .fail d := by
            have hapt := h.apt k w hw
            rw [hlife] at hapt
            exact hapt.2 rfl
          have hended : Life.answered w s (.failed .cancelled)
              = .leaving (.failed .cancelled) w.inputs true := by
            unfold Life.answered Stage.reply
            cases hs : s.want with
            | fail d => exact absurd hs (hwant d)
            | _ => rfl
          cases hstep
          rw [hended]
          exact .halt hlife (.cancelled hcancelled)
        · simp at hstep
      · rename_i o sources sink i hlife
        split at hstep
        · rename_i hi
          have hapt := h.apt k w hw
          rw [hlife] at hapt
          obtain ⟨c, hc⟩ := h.channel_of_input hw (hapt.2 hi)
          simp only [hc] at hstep
          cases hstep
          exact .dropSource hlife hi hc
        · simp at hstep
      · rename_i o sources hlife
        obtain ⟨c, hc⟩ := h.channel_of_worker hw
        rw [hout] at hstep
        simp only [hc] at hstep
        cases hstep
        exact .dropSink hlife hc
      · rename_i o hlife
        cases hstep
        exact .finish hlife
      · simp at hstep

end Cases

/-! ### Every step keeps a network sound

A step changes the life of one worker and at most one channel, which that worker writes or reads.
The two lemmas before `Step.sound` say what has to be looked at in either case. -/

section Preservation

variable {n n' : Network} {output k i : Nat} {w : Worker} {c c' : Channel} {life : Life}

theorem setChannel_self (hc : n.channels[i]? = some c) : n.setChannel i c = n := by
  obtain ⟨hi, rfl⟩ := List.getElem?_eq_some_iff.mp hc
  unfold setChannel
  rw [List.set_getElem_self]

theorem Wired.update (h : n.Wired output) (hw : n.workers[k]? = some w) (c' : Channel)
    (life : Life) : ((n.setChannel i c').setLife k w life).Wired output := by
  refine h.congr (by simp [setLife, setChannel]) (by simp [setLife, setChannel]) ?_
  intro j v hv
  rw [workers_update hw] at hv
  split at hv
  · rename_i hj
    subst hj
    cases hv
    exact ⟨w, hw, rfl, rfl⟩
  · exact ⟨v, hv, rfl, rfl⟩

/-- A worker and the channel that it writes have changed. -/
theorem Sound.own_step (h : n.Sound output) (hw : n.workers[k]? = some w)
    (hc : n.channels[k]? = some c) (hapt : life.Apt w.inputs) (hsink : life.Writes c')
    (hsource : ∀ (pos i : Nat) (ci : Channel), w.inputs[pos]? = some i →
      n.channels[i]? = some ci → life.Reads pos i ci)
    (hconsumer : c'.consumer = c.consumer) (hfinished : c'.finished = c.finished)
    (hspent : c'.finished = true → c'.slot = none) :
    ((n.setChannel k c').setLife k w life).Sound output where
  toWired := h.toWired.update hw c' life
  apt := by
    intro j v hv
    rw [workers_update hw] at hv
    split at hv
    · cases hv
      exact hapt
    · exact h.apt j v hv
  sink := by
    intro j v cj hv hcj
    rw [workers_update hw] at hv
    rw [channels_update hc] at hcj
    split at hv
    · rename_i hj
      rw [if_pos hj] at hcj
      cases hv
      cases hcj
      exact hsink
    · rename_i hj
      rw [if_neg hj] at hcj
      exact h.sink j v cj hv hcj
  source := by
    intro j v pos i ci hv hi hci
    rw [workers_update hw] at hv
    rw [channels_update hc] at hci
    split at hv
    · cases hv
      -- a worker does not read the channel that it writes
      have hne : i ≠ k := Nat.ne_of_lt (h.earlier k w hw i (List.mem_of_getElem? hi))
      rw [if_neg hne] at hci
      exact hsource pos i ci hi hci
    · split at hci
      · rename_i hik
        subst hik
        cases hci
        obtain ⟨hr, hworking, hended⟩ := h.source j v pos i c hv hi hc
        refine ⟨hconsumer.trans hr, ?_, ?_⟩
        · intro s waiting hlife
          rw [hfinished]
          exact hworking s waiting hlife
        · intro hok
          rw [hfinished]
          exact hended hok
      · exact h.source j v pos i ci hv hi hci
  spent := by
    intro i ci hci
    rw [channels_update hc] at hci
    split at hci
    · cases hci
      exact hspent
    · exact h.spent i ci hci

/-- A worker and a channel that it reads have changed. -/
theorem Sound.input_step (h : n.Sound output) (hw : n.workers[k]? = some w) (hi : i ∈ w.inputs)
    (hc : n.channels[i]? = some c) (hapt : life.Apt w.inputs)
    (hsink : ∀ ck, n.channels[k]? = some ck → life.Writes ck)
    (hproducer : c'.producer = c.producer) (hclosed : c'.Closed ↔ c.Closed)
    (hspent : c'.finished = true → c'.slot = none)
    (hsource : ∀ (pos j : Nat) (cj : Channel), w.inputs[pos]? = some j →
      n.channels[j]? = some cj → life.Reads pos j (if j = i then c' else cj)) :
    ((n.setChannel i c').setLife k w life).Sound output where
  toWired := h.toWired.update hw c' life
  apt := by
    intro j v hv
    rw [workers_update hw] at hv
    split at hv
    · cases hv
      exact hapt
    · exact h.apt j v hv
  sink := by
    intro j v cj hv hcj
    rw [workers_update hw] at hv
    rw [channels_update hc] at hcj
    have hne : k ≠ i := Nat.ne_of_gt (h.earlier k w hw i hi)
    split at hv
    · rename_i hj
      subst hj
      rw [if_neg hne] at hcj
      cases hv
      exact hsink cj hcj
    · split at hcj
      · rename_i hji
        subst hji
        cases hcj
        obtain ⟨hp, hcl⟩ := h.sink j v c hv hc
        exact ⟨hproducer.trans hp, hclosed.trans hcl⟩
      · exact h.sink j v cj hv hcj
  source := by
    intro j v pos l cl hv hl hcl
    rw [workers_update hw] at hv
    rw [channels_update hc] at hcl
    split at hv
    · cases hv
      split at hcl
      · rename_i hli
        cases hcl
        have hthis := hsource pos l c hl (hli ▸ hc)
        rw [if_pos hli] at hthis
        exact hthis
      · rename_i hli
        have hthis := hsource pos l cl hl hcl
        rw [if_neg hli] at hthis
        exact hthis
    · rename_i hj
      -- the channel is read nowhere else
      have hne : l ≠ i := by
        rintro rfl
        obtain ⟨pos', hpos'⟩ := List.mem_iff_getElem?.mp hi
        exact hj (h.reader j v pos k w pos' l hv hl hw hpos').1
      rw [if_neg hne] at hcl
      exact h.source j v pos l cl hv hl hcl
  spent := by
    intro j cj hcj
    rw [channels_update hc] at hcj
    split at hcj
    · cases hcj
      exact hspent
    · exact h.spent j cj hcj

/-- Whether the query is cancelled has no part in how workers and channels stand. -/
theorem Sound.withCancelled (h : n.Sound output) (b : Bool) :
    ({ n with cancelled := b } : Network).Sound output :=
  ⟨⟨h.size, h.root, h.writes, h.earlier, h.reader, h.unread, h.read⟩, h.apt, h.sink, h.source,
    h.spent⟩

theorem finish_eq (n : Network) (k : Nat) (w : Worker) (o : Outcome) :
    ∃ b, n.finish k w o = { n.setLife k w (.done o) with cancelled := b } := by
  unfold finish
  split
  · exact ⟨_, rfl⟩
  · exact ⟨true, rfl⟩
  · exact ⟨_, rfl⟩

/-- A worker that has ended and not well. -/
theorem Sound.halts (h : n.Sound output) (hw : n.workers[k]? = some w) {s : Stage} {waiting : Bool}
    (hlife : w.life = .working s waiting) {o : Outcome} (ho : o ≠ .ok) :
    (n.setLife k w (.leaving o w.inputs true)).Sound output := by
  obtain ⟨c, hc⟩ := h.channel_of_worker hw
  obtain ⟨hproducer, hclosed⟩ := h.sink k w c hw hc
  have hno : Life.ended? (.leaving o w.inputs true) ≠ some .ok := by
    intro hok
    cases hok
    exact ho rfl
  rw [hlife] at hproducer
  rw [← setChannel_self hc]
  refine h.own_step hw hc ⟨h.inputs_nodup hw, List.Subset.refl _⟩ ⟨hproducer, ?_⟩ ?_ rfl rfl
    (h.spent k c hc)
  · refine iff_of_false ?_ hno
    intro hcl
    rw [hclosed, hlife] at hcl
    cases hcl
  · intro pos i ci hi hci
    refine ⟨?_, fun _ _ hworking => (by cases hworking), fun hok => absurd hok hno⟩
    rw [(h.source k w pos i ci hw hi hci).consumer, hlife]
    simp [Life.holdsSource, List.mem_of_getElem? hi]

/-- A worker that has closed its output has seen the ends of all its inputs. -/
theorem Sound.closes (h : n.Sound output) (hw : n.workers[k]? = some w) {s : Stage}
    {waiting : Bool} (hlife : w.life = .working s waiting) (hwant : s.want = .close)
    (hc : n.channels[k]? = some c) :
    ((n.setChannel k { c with slot := some .endOfStream }).setLife k w
      (.leaving .ok w.inputs true)).Sound output := by
  obtain ⟨hproducer, hclosed⟩ := h.sink k w c hw hc
  have hapt := h.apt k w hw
  rw [hlife] at hproducer hclosed hapt
  have hopen : c.finished ≠ true := fun hf => by cases hclosed.mp (.inl hf)
  refine h.own_step hw hc ⟨h.inputs_nodup hw, List.Subset.refl _⟩
    ⟨hproducer, iff_of_true (.inr rfl) rfl⟩ ?_ rfl rfl (fun hf => absurd hf hopen)
  intro pos i ci hi hci
  have hr := h.source k w pos i ci hw hi hci
  refine ⟨?_, fun _ _ hworking => (by cases hworking), ?_⟩
  · rw [hr.consumer, hlife]
    simp [Life.holdsSource, List.mem_of_getElem? hi]
  · intro _
    rw [hr.working s waiting hlife]
    exact Stage.exhausted_of_want_close hwant hapt.1 (List.getElem?_eq_some_iff.mp hi).1

/-- A worker that has sent a row has seen nothing more of its inputs. -/
theorem Sound.sends (h : n.Sound output) (hw : n.workers[k]? = some w) {s after : Stage}
    {waiting : Bool} {row : Row} (hlife : w.life = .working s waiting)
    (hwant : s.want = .send row after) (hc : n.channels[k]? = some c) :
    ((n.setChannel k { c with slot := some (.row row) }).setLife k w
      (.working after false)).Sound output := by
  obtain ⟨hproducer, hclosed⟩ := h.sink k w c hw hc
  have hapt := h.apt k w hw
  rw [hlife] at hproducer hclosed hapt
  have hopen : c.finished ≠ true := fun hf => by cases hclosed.mp (.inl hf)
  obtain ⟨hfits, hseen⟩ := Stage.seen_of_want_send hwant hapt.1
  refine h.own_step hw hc ⟨hfits, fun hf => by cases hf⟩ ⟨hproducer, ?_⟩ ?_ rfl rfl
    (fun hf => absurd hf hopen)
  · refine iff_of_false ?_ (fun hended => by cases hended)
    intro hcl
    rcases hcl with hcl | hcl
    · exact hopen hcl
    · simp at hcl
  · intro pos i ci hi hci
    have hr := h.source k w pos i ci hw hi hci
    refine ⟨?_, ?_, fun hok => by cases hok⟩
    · rw [hr.consumer, hlife]
      rfl
    · intro s' waiting' hlife'
      cases hlife'
      rw [hr.working s waiting hlife, hseen pos]

/-- A worker that has received an item has noted whether it was the closing mark. -/
theorem Sound.receives (h : n.Sound output) (hw : n.workers[k]? = some w) {s : Stage}
    {waiting : Bool} {input : Nat} {item : Item} (hlife : w.life = .working s waiting)
    (hwant : s.want = .receive input) (hi : w.inputs[input]? = some i)
    (hc : n.channels[i]? = some c) (hslot : c.slot = some item) :
    ((n.setChannel i { c with slot := none, finished := item.isEnd }).setLife k w
      (.working (s.accept item) false)).Sound output := by
  have hapt := h.apt k w hw
  rw [hlife] at hapt
  obtain ⟨hfits, hseen⟩ := Stage.seen_accept hwant hapt.1 item
  refine h.input_step hw (List.mem_of_getElem? hi) hc ⟨hfits, fun hf => by cases hf⟩ ?_ rfl
    (Channel.closed_take (h.spent i c hc) hslot) (fun _ => rfl) ?_
  · intro ck hck
    obtain ⟨hproducer, hclosed⟩ := h.sink k w ck hw hck
    rw [hlife] at hproducer hclosed
    exact ⟨hproducer, hclosed⟩
  · intro pos j cj hj hcj
    have hr := h.source k w pos j cj hw hj hcj
    have hpos : pos < w.inputs.length := (List.getElem?_eq_some_iff.mp hj).1
    have hconsumer : cj.consumer = true := by
      rw [hr.consumer, hlife]
      rfl
    by_cases hji : j = i
    · subst hji
      obtain ⟨-, rfl⟩ := h.reader k w pos k w input j hw hj hw hi
      rw [hc] at hcj
      cases hcj
      rw [if_pos rfl]
      refine ⟨hconsumer, ?_, fun hok => by cases hok⟩
      intro s' waiting' hlife'
      cases hlife'
      rw [hseen pos hpos, (Stage.open_of_want_receive hwant hapt.1).2]
      simp
    · rw [if_neg hji]
      refine ⟨hconsumer, ?_, fun hok => by cases hok⟩
      intro s' waiting' hlife'
      cases hlife'
      have hne : pos ≠ input := by
        rintro rfl
        rw [hi] at hj
        cases hj
        exact hji rfl
      rw [hseen pos hpos, hr.working s waiting hlife]
      simp [hne]

/-- A worker that has ended may let go of a consumer half. -/
theorem Sound.drops_source (h : n.Sound output) (hw : n.workers[k]? = some w) {o : Outcome}
    {sources : List Nat} {sink : Bool} (hlife : w.life = .leaving o sources sink)
    (hi : i ∈ sources) (hc : n.channels[i]? = some c) :
    ((n.setChannel i c.dropConsumer).setLife k w
      (.leaving o (sources.erase i) sink)).Sound output := by
  have hapt := h.apt k w hw
  rw [hlife] at hapt
  obtain ⟨hnodup, hsub⟩ := hapt
  refine h.input_step hw (hsub hi) hc
    ⟨hnodup.erase i, fun j hj => hsub (List.mem_of_mem_erase hj)⟩ ?_ rfl Iff.rfl (h.spent i c hc) ?_
  · intro ck hck
    obtain ⟨hproducer, hclosed⟩ := h.sink k w ck hw hck
    rw [hlife] at hproducer hclosed
    exact ⟨hproducer, hclosed⟩
  · intro pos j cj hj hcj
    obtain ⟨hconsumer, -, hended⟩ := h.source k w pos j cj hw hj hcj
    rw [hlife] at hconsumer hended
    by_cases hji : j = i
    · subst hji
      rw [hc] at hcj
      cases hcj
      rw [if_pos rfl]
      refine ⟨?_, fun _ _ hworking => (by cases hworking), hended⟩
      simp [Channel.dropConsumer, Life.holdsSource, hnodup.not_mem_erase]
    · rw [if_neg hji]
      refine ⟨?_, fun _ _ hworking => (by cases hworking), hended⟩
      rw [hconsumer]
      simp [Life.holdsSource, List.mem_erase_of_ne hji]

/-- A worker that has ended may let go of its producer half, and finish when it holds nothing. -/
theorem Sound.lets_go (h : n.Sound output) (hw : n.workers[k]? = some w) {o : Outcome}
    {sources : List Nat} {sink : Bool} (hlife : w.life = .leaving o sources sink)
    (hc : n.channels[k]? = some c) {life : Life} (hapt : life.Apt w.inputs)
    (hended : life.ended? = some o) (hsink : life.holdsSink = false)
    (hsources : ∀ i, life.holdsSource i = decide (i ∈ sources)) :
    ((n.setChannel k c.dropProducer).setLife k w life).Sound output := by
  have hnot : ∀ s waiting, life ≠ .working s waiting := by
    rintro s waiting rfl
    cases hended
  have hc' := h.sink k w c hw hc
  refine h.own_step hw hc hapt ⟨hsink.symm, ?_⟩ ?_ rfl rfl
    (h.spent k c hc)
  · rw [hended]
    refine Iff.trans Iff.rfl (hc'.closed.trans ?_)
    rw [hlife]
    rfl
  · intro pos i ci hi hci
    obtain ⟨hconsumer, -, hfinished⟩ := h.source k w pos i ci hw hi hci
    rw [hlife] at hconsumer hfinished
    refine ⟨?_, fun s waiting hworking => absurd hworking (hnot s waiting), ?_⟩
    · rw [hconsumer, hsources i]
      rfl
    · intro hok
      rw [hended] at hok
      exact hfinished hok

/-- **Every step keeps a network sound.** -/
theorem Step.sound (hstep : Step n k w n') (h : n.Sound output) (hw : n.workers[k]? = some w) :
    n'.Sound output := by
  cases hstep with
  | @wait s hlife hwant =>
      obtain ⟨c, hc⟩ := h.channel_of_worker hw
      obtain ⟨hproducer, hclosed⟩ := h.sink k w c hw hc
      have hapt := h.apt k w hw
      rw [hlife] at hapt hproducer hclosed
      rw [← setChannel_self hc]
      refine h.own_step hw hc ⟨hapt.1, fun _ => hwant⟩ ⟨hproducer, hclosed⟩
        ?_ rfl rfl (h.spent k c hc)
      intro pos i ci hi hci
      obtain ⟨hconsumer, hworking, -⟩ := h.source k w pos i ci hw hi hci
      rw [hlife] at hconsumer
      refine ⟨hconsumer, ?_, fun hok => by cases hok⟩
      intro s' waiting hs'
      cases hs'
      exact hworking s false hlife
  | halt hlife hwhy => exact h.halts hw hlife hwhy.ne_ok
  | receive hlife hwant hi hc hslot => exact h.receives hw hlife hwant hi hc hslot
  | send hlife hwant hc hconsumer hslot => exact h.sends hw hlife hwant hc
  | close hlife hwant hc hconsumer hslot => exact h.closes hw hlife hwant hc
  | dropSource hlife hi hc => exact h.drops_source hw hlife hi hc
  | @dropSink o sources c hlife hc =>
      have hapt := h.apt k w hw
      rw [hlife] at hapt
      exact h.lets_go hw hlife hc hapt rfl rfl fun i => rfl
  | @finish o hlife =>
      obtain ⟨c, hc⟩ := h.channel_of_worker hw
      obtain ⟨b, hb⟩ := finish_eq n k w o
      -- the producer half is gone already
      have hgone : c.dropProducer = c := by
        have hproducer : c.producer = false := by
          rw [(h.sink k w c hw hc).producer, hlife]
          rfl
        unfold Channel.dropProducer
        rw [← hproducer]
      rw [hb]
      refine Sound.withCancelled ?_ b
      have hdone : ((n.setChannel k c.dropProducer).setLife k w (.done o)).Sound output :=
        h.lets_go hw hlife hc trivial rfl rfl fun i => by simp [Life.holdsSource]
      rw [hgone, setChannel_self hc] at hdone
      exact hdone

/-- Nobody but the caller reads the answer; its reads keep the network sound. -/
theorem Sound.root_step (h : n.Sound output) (hc : n.channels[output]? = some c)
    (hproducer : c'.producer = c.producer) (hclosed : c'.Closed ↔ c.Closed)
    (hspent : c'.finished = true → c'.slot = none) : (n.setChannel output c').Sound output where
  toWired := h.toWired.congr (by simp [setChannel]) rfl fun k v hv => ⟨v, hv, rfl, rfl⟩
  apt := h.apt
  sink := by
    intro k v ck hv hck
    rw [channels_setChannel hc] at hck
    split at hck
    · rename_i hk
      subst hk
      cases hck
      obtain ⟨hp, hcl⟩ := h.sink _ v c hv hc
      exact ⟨hproducer.trans hp, hclosed.trans hcl⟩
    · exact h.sink k v ck hv hck
  source := by
    intro k v pos i ci hv hi hci
    have hne : i ≠ output := by
      rintro rfl
      exact h.unread k v hv (List.mem_of_getElem? hi)
    rw [channels_setChannel hc, if_neg hne] at hci
    exact h.source k v pos i ci hv hi hci
  spent := by
    intro i ci hci
    rw [channels_setChannel hc] at hci
    split at hci
    · cases hci
      exact hspent
    · exact h.spent i ci hci

/-- The caller takes an item out of the answer. -/
theorem Sound.caller_took (h : n.Sound output) (hc : n.channels[output]? = some c) {item : Item}
    (hslot : c.slot = some item) :
    (n.setChannel output { c with slot := none, finished := item.isEnd }).Sound output :=
  h.root_step hc rfl (Channel.closed_take (h.spent _ c hc) hslot) fun _ => rfl

end Preservation

/-! ### What no step undoes -/

section Lasting

variable {n n' : Network} {output k j : Nat} {w v : Worker} {c : Channel} {o : Outcome}

/-- A step leaves all other workers as they are, and an outcome, once there is one, stays. -/
theorem Step.workers (hstep : Step n k w n') :
    ∃ life, n'.workers = n.workers.set k { w with life } ∧
      (∀ o, w.life.ended? = some o → life.ended? = some o) ∧ ∀ o, w.life ≠ .done o := by
  cases hstep with
  | wait hlife _ => exact ⟨_, rfl, by simp [hlife, Life.ended?], by simp [hlife]⟩
  | halt hlife _ => exact ⟨_, rfl, by simp [hlife, Life.ended?], by simp [hlife]⟩
  | receive hlife _ _ _ _ => exact ⟨_, rfl, by simp [hlife, Life.ended?], by simp [hlife]⟩
  | send hlife _ _ _ _ => exact ⟨_, rfl, by simp [hlife, Life.ended?], by simp [hlife]⟩
  | close hlife _ _ _ _ => exact ⟨_, rfl, by simp [hlife, Life.ended?], by simp [hlife]⟩
  | dropSource hlife _ _ => exact ⟨_, rfl, by simp [hlife, Life.ended?], by simp [hlife]⟩
  | dropSink hlife _ => exact ⟨_, rfl, by simp [hlife, Life.ended?], by simp [hlife]⟩
  | @finish o hlife =>
      obtain ⟨b, hb⟩ := finish_eq n k w o
      rw [hb]
      exact ⟨.done o, rfl, by simp [hlife, Life.ended?], by simp [hlife]⟩

theorem Step.workers_length (hstep : Step n k w n') : n'.workers.length = n.workers.length := by
  obtain ⟨life, hworkers, -⟩ := hstep.workers
  rw [hworkers, List.length_set]

/-- A worker that has ended, ended the same way after the step. -/
theorem Step.ended_mono (hstep : Step n k w n') (hw : n.workers[k]? = some w)
    (hv : n.workers[j]? = some v) (ho : v.life.ended? = some o) :
    ∃ v', n'.workers[j]? = some v' ∧ v'.life.ended? = some o := by
  obtain ⟨life, hworkers, hended, -⟩ := hstep.workers
  have hk : k < n.workers.length := (List.getElem?_eq_some_iff.mp hw).1
  rw [hworkers]
  by_cases hj : j = k
  · subst hj
    rw [hw] at hv
    cases hv
    exact ⟨_, List.getElem?_set_self hk, hended o ho⟩
  · rw [List.getElem?_set_ne (Ne.symm hj)]
    exact ⟨v, hv, ho⟩

/-- A worker that is done makes no step. -/
theorem Step.done_mono (hstep : Step n k w n') (hw : n.workers[k]? = some w)
    (hv : n.workers[j]? = some v) (ho : v.life = .done o) : n'.workers[j]? = some v := by
  obtain ⟨life, hworkers, -, hnot⟩ := hstep.workers
  have hj : j ≠ k := by
    rintro rfl
    rw [hw] at hv
    cases hv
    exact hnot o ho
  rw [hworkers, List.getElem?_set_ne (Ne.symm hj)]
  exact hv

theorem Step.cancelled_mono (hstep : Step n k w n') (hcancelled : n.cancelled = true) :
    n'.cancelled = true := by
  cases hstep with
  | @finish o _ =>
      unfold Network.finish
      split
      · exact hcancelled
      · rfl
      · exact hcancelled
  | _ => exact hcancelled

/-- No worker touches the caller's half of the answer, nor takes anything out of it. -/
theorem Step.root_kept (hstep : Step n k w n') (h : n.Sound output) (hw : n.workers[k]? = some w)
    (hc : n.channels[output]? = some c) :
    ∃ c', n'.channels[output]? = some c' ∧ c'.consumer = c.consumer ∧
      c'.finished = c.finished := by
  have hunread := h.unread k w hw
  cases hstep with
  | wait _ _ => exact ⟨c, hc, rfl, rfl⟩
  | halt _ _ => exact ⟨c, hc, rfl, rfl⟩
  | @receive s input i ci item _ _ hi hci _ =>
      have hne : output ≠ i := by
        rintro rfl
        exact hunread (List.mem_of_getElem? hi)
      refine ⟨c, ?_, rfl, rfl⟩
      rw [channels_update hci, if_neg hne]
      exact hc
  | @send s after row ck _ _ hck _ _ =>
      rw [channels_update hck]
      split
      · rename_i hroot
        subst hroot
        rw [hc] at hck
        cases hck
        exact ⟨_, rfl, rfl, rfl⟩
      · exact ⟨c, hc, rfl, rfl⟩
  | @close s ck _ _ hck _ _ =>
      rw [channels_update hck]
      split
      · rename_i hroot
        subst hroot
        rw [hc] at hck
        cases hck
        exact ⟨_, rfl, rfl, rfl⟩
      · exact ⟨c, hc, rfl, rfl⟩
  | @dropSource o sources sink i ci hlife hi hci =>
      have hapt := h.apt k w hw
      rw [hlife] at hapt
      have hne : output ≠ i := by
        rintro rfl
        exact hunread (hapt.2 hi)
      refine ⟨c, ?_, rfl, rfl⟩
      rw [channels_update hci, if_neg hne]
      exact hc
  | @dropSink o sources ck _ hck =>
      rw [channels_update hck]
      split
      · rename_i hroot
        subst hroot
        rw [hc] at hck
        cases hck
        exact ⟨_, rfl, rfl, rfl⟩
      · exact ⟨c, hc, rfl, rfl⟩
  | @finish o _ =>
      obtain ⟨b, hb⟩ := finish_eq n k w o
      rw [hb]
      exact ⟨c, hc, rfl, rfl⟩

/-- What no worker and no cancellation undoes. -/
structure Lasts (n n' : Network) (output : Nat) : Prop where
  length : n'.workers.length = n.workers.length
  cancelled : n.cancelled = true → n'.cancelled = true
  done : ∀ (k : Nat) (w : Worker) (o : Outcome), n.workers[k]? = some w → w.life = .done o →
    n'.workers[k]? = some w
  ended : ∀ (k : Nat) (w : Worker) (o : Outcome), n.workers[k]? = some w →
    w.life.ended? = some o → ∃ w', n'.workers[k]? = some w' ∧ w'.life.ended? = some o
  root : ∀ c, n.channels[output]? = some c → ∃ c', n'.channels[output]? = some c' ∧
    c'.consumer = c.consumer ∧ c'.finished = c.finished

theorem Lasts.refl (n : Network) (output : Nat) : n.Lasts n output :=
  ⟨rfl, id, fun _ _ _ hw _ => hw, fun _ w _ hw ho => ⟨w, hw, ho⟩, fun c hc => ⟨c, hc, rfl, rfl⟩⟩

theorem lasts_cancel (n : Network) (output : Nat) : n.Lasts n.cancel output :=
  ⟨rfl, fun _ => rfl, fun _ _ _ hw _ => hw, fun _ w _ hw ho => ⟨w, hw, ho⟩,
    fun c hc => ⟨c, hc, rfl, rfl⟩⟩

theorem Step.lasts (hstep : Step n k w n') (h : n.Sound output) (hw : n.workers[k]? = some w) :
    n.Lasts n' output :=
  ⟨hstep.workers_length, hstep.cancelled_mono, fun _ _ _ hv ho => hstep.done_mono hw hv ho,
    fun _ _ _ hv ho => hstep.ended_mono hw hv ho, fun _ hc => hstep.root_kept h hw hc⟩

end Lasting

end Network

end StreamQuery
