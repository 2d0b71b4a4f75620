/-
Operators of a query on their courses.

A course lets the channels of one operator answer as they like.  In a query they answer as the
other operators and the caller make them, so every run of the query is a course of each of its
operators; and what the traffic of two operators has to do with each other is known.  The rows that
one has received are those that the other has sent, but for one that may still be on its way, and it
has received the closing mark only when the other had closed its output (`Network.OnCourse`).

So what holds of an operator whatever its channels do holds of all operators of a query whatever
happens to it: workers that stop, a caller that goes away, a cancellation.  From the leaves up, what
an operator has sent is a beginning of the rows that its node yields.
-/
import StreamQuery.Proofs.Operator.Course
import StreamQuery.Proofs.Query.Liveness
import StreamQuery.Proofs.Query.Start

namespace StreamQuery

/-! ### All operators -/

/-- What has become of the operator of a worker. -/
def Life.progress : Life → Progress
  | .working s _ => .running s
  | .leaving o _ _ | .done o => .ended o

theorem Life.progress_of_ended {life : Life} {o : Outcome} (h : life.ended? = some o) :
    life.progress = .ended o := by
  cases life with
  | working s waiting => cases h
  | leaving o' sources sink => cases h; rfl
  | done o' => cases h; rfl

namespace Network

/-- The operators of these tasks are on their courses in a network, with this traffic. -/
structure OnCourse (n : Network) (tasks : List Task) (traffic : Nat → Traffic) : Prop where
  size : n.workers.length = tasks.length
  course : ∀ (k : Nat) (t : Task) (w : Worker), tasks[k]? = some t → n.workers[k]? = some w →
    w.inputs = t.inputs ∧ t.operator.Course w.life.progress (traffic k)
  /-- What was sent was received or is on its way. -/
  rows : ∀ (k : Nat) (w : Worker) (pos i : Nat) (c : Channel), n.workers[k]? = some w →
    w.inputs[pos]? = some i → n.channels[i]? = some c →
      (traffic k).received pos ++ c.held = (traffic i).sent
  /-- The closing mark comes behind all rows. -/
  marks : ∀ (k : Nat) (w : Worker) (pos i : Nat), n.workers[k]? = some w →
    w.inputs[pos]? = some i → (traffic k).ended pos = true →
      (traffic i).closed = true ∧ (traffic k).received pos = (traffic i).sent

/-- A worker whose stage cannot go on can only crash. -/
theorem step_of_fail {n n' : Network} {output k : Nat} {w : Worker} {s : Stage} {waiting : Bool}
    {d : RunDefect} {m : Move} (h : n.Sound output) (hw : n.workers[k]? = some w)
    (hlife : w.life = .working s waiting) (hwant : s.want = .fail d)
    (hstep : n.step k m = some n') : n' = n.setLife k w (.leaving (.crashed d) w.inputs true) := by
  have hapt := h.apt k w hw
  rw [hlife] at hapt
  cases waiting with
  | true => exact absurd hwant (hapt.2 rfl d)
  | false =>
      unfold step at hstep
      simp only [hw, hlife] at hstep
      cases m with
      | proceed =>
          simp only [begin, hwant, Option.some.injEq] at hstep
          exact hstep.symm
      | _ => simp at hstep

namespace OnCourse

variable {n n' : Network} {tasks : List Task} {traffic : Nat → Traffic} {output k i : Nat}
  {w : Worker} {c c' : Channel} {life : Life} {u : Traffic}

/-- Only channels have changed, and those that workers read hold what they held. -/
theorem of_held (h : n.OnCourse tasks traffic) (hworkers : n'.workers = n.workers)
    (hheld : ∀ (k : Nat) (w : Worker) (i : Nat) (c' : Channel), n.workers[k]? = some w →
      i ∈ w.inputs → n'.channels[i]? = some c' →
        ∃ c, n.channels[i]? = some c ∧ c'.held = c.held) : n'.OnCourse tasks traffic where
  size := by rw [hworkers]; exact h.size
  course := by rw [hworkers]; exact h.course
  rows := by
    rw [hworkers]
    intro k w pos i c' hw hi hc'
    obtain ⟨c, hc, hsame⟩ := hheld k w i c' hw (List.mem_of_getElem? hi) hc'
    rw [hsame]
    exact h.rows k w pos i c hw hi hc
  marks := by rw [hworkers]; exact h.marks

theorem setChannel (h : n.OnCourse tasks traffic) (hc : n.channels[i]? = some c)
    (hheld : c'.held = c.held) : (n.setChannel i c').OnCourse tasks traffic := by
  refine h.of_held rfl ?_
  intro _ _ j cj _ _ hcj
  rw [channels_setChannel hc] at hcj
  split at hcj
  · rename_i hj
    subst hj
    cases hcj
    exact ⟨c, hc, hheld⟩
  · exact ⟨cj, hcj, rfl⟩

/-- One worker goes on along its course.  What is left to look at is what the channels hold. -/
theorem goesOn (h : n.OnCourse tasks traffic) (hw : n.workers[k]? = some w)
    (hworkers : n'.workers = n.workers.set k { w with life })
    (hcourse : ∀ op : Operator, op.Course w.life.progress (traffic k) →
      op.Course life.progress u)
    (hrows : ∀ (j : Nat) (v : Worker) (pos i : Nat) (c : Channel), n.workers[j]? = some v →
      v.inputs[pos]? = some i → n'.channels[i]? = some c →
        (Function.update traffic k u j).received pos ++ c.held
          = (Function.update traffic k u i).sent)
    (hmarks : ∀ (j : Nat) (v : Worker) (pos i : Nat), n.workers[j]? = some v →
      v.inputs[pos]? = some i → (Function.update traffic k u j).ended pos = true →
        (Function.update traffic k u i).closed = true ∧
          (Function.update traffic k u j).received pos = (Function.update traffic k u i).sent) :
    n'.OnCourse tasks (Function.update traffic k u) := by
  have hlookup : ∀ j : Nat, n'.workers[j]? = if j = k then some { w with life } else
      n.workers[j]? := by
    intro j
    rw [← workers_setLife hw life j, hworkers]
    rfl
  have hinputs : ∀ {j : Nat} {v : Worker}, n'.workers[j]? = some v →
      ∃ v₀, n.workers[j]? = some v₀ ∧ v₀.inputs = v.inputs := by
    intro j v hv
    rw [hlookup] at hv
    split at hv
    · rename_i hj
      subst hj
      cases hv
      exact ⟨w, hw, rfl⟩
    · exact ⟨v, hv, rfl⟩
  refine ⟨?_, ?_, ?_, ?_⟩
  · rw [← h.size, hworkers]
    exact List.length_set
  · intro j t v ht hv
    rw [hlookup] at hv
    split at hv
    · rename_i hj
      subst hj
      cases hv
      obtain ⟨hsame, hbefore⟩ := h.course j t w ht hw
      rw [Function.update_self]
      exact ⟨hsame, hcourse _ hbefore⟩
    · rename_i hj
      rw [Function.update_of_ne hj]
      exact h.course j t v ht hv
  · intro j v pos i c hv hi hc
    obtain ⟨v₀, hv₀, hsame⟩ := hinputs hv
    rw [← hsame] at hi
    exact hrows j v₀ pos i c hv₀ hi hc
  · intro j v pos i hv hi
    obtain ⟨v₀, hv₀, hsame⟩ := hinputs hv
    rw [← hsame] at hi
    exact hmarks j v₀ pos i hv₀ hi

/-- A worker goes on and nothing passes. -/
theorem setLife (h : n.OnCourse tasks traffic) (hw : n.workers[k]? = some w)
    (hcourse : ∀ op : Operator, op.Course w.life.progress (traffic k) →
      op.Course life.progress (traffic k)) : (n.setLife k w life).OnCourse tasks traffic := by
  have hsame : Function.update traffic k (traffic k) = traffic := Function.update_eq_self k traffic
  have hafter : (n.setLife k w life).OnCourse tasks (Function.update traffic k (traffic k)) :=
    h.goesOn hw rfl hcourse (by rw [hsame]; exact h.rows) (by rw [hsame]; exact h.marks)
  rw [hsame] at hafter
  exact hafter

/-- The course of the operator of a worker. -/
theorem exists_course (h : n.OnCourse tasks traffic) (hw : n.workers[k]? = some w) :
    ∃ op : Operator, op.Course w.life.progress (traffic k) := by
  have hk : k < tasks.length := h.size ▸ (List.getElem?_eq_some_iff.mp hw).1
  exact ⟨_, (h.course k _ w (List.getElem?_eq_getElem hk) hw).2⟩

/-- A closed channel was closed by the operator that writes it. -/
theorem closed_of_channel (h : n.OnCourse tasks traffic) (hs : n.Sound output)
    (hc : n.channels[i]? = some c) (hclosed : c.Closed) : (traffic i).closed = true := by
  obtain ⟨w, hw⟩ := hs.worker_of_channel hc
  have hok := (hs.sink i w c hw hc).closed.mp hclosed
  obtain ⟨op, hcourse⟩ := h.exists_course hw
  rw [Life.progress_of_ended hok] at hcourse
  exact Operator.closed_of_ok hcourse

/-- What does not change at one place changes nowhere. -/
theorem update_same {α : Type} {traffic : Nat → Traffic} {k : Nat} {u : Traffic}
    (f : Traffic → α) (h : f u = f (traffic k)) (j : Nat) :
    f (Function.update traffic k u j) = f (traffic j) := by
  by_cases hj : j = k
  · rw [hj, Function.update_self, h]
  · rw [Function.update_of_ne hj]

/-- An operator sends rows or closes its output, and nobody has received the closing mark of an
operator at work. -/
theorem put (h : n.OnCourse tasks traffic) (hw : n.workers[k]? = some w) {s : Stage}
    {waiting : Bool} (hlife : w.life = .working s waiting) (hc : n.channels[k]? = some c)
    {rows : List Row} (hheld : c'.held = c.held ++ rows)
    (hsent : u.sent = (traffic k).sent ++ rows) (hreceived : u.received = (traffic k).received)
    (hended : u.ended = (traffic k).ended)
    (hcourse : ∀ op : Operator, op.Course (.running s) (traffic k) → op.Course life.progress u) :
    ((n.setChannel k c').setLife k w life).OnCourse tasks (Function.update traffic k u) := by
  have hopen : (traffic k).closed = false := by
    obtain ⟨op, hbefore⟩ := h.exists_course hw
    rw [hlife] at hbefore
    exact Operator.closed_of_running hbefore
  refine h.goesOn hw rfl (fun op hbefore => hcourse op (by rw [hlife] at hbefore; exact hbefore))
    ?_ ?_
  · intro j v pos i ci hv hi hci
    rw [channels_update hc] at hci
    rw [update_same Traffic.received hreceived]
    split at hci
    · rename_i hik
      subst hik
      cases hci
      rw [Function.update_self, hsent, hheld, ← List.append_assoc, h.rows j v pos i c hv hi hc]
    · rename_i hik
      rw [Function.update_of_ne hik]
      exact h.rows j v pos i ci hv hi hci
  · intro j v pos i hv hi hmark
    rw [update_same Traffic.ended hended] at hmark
    obtain ⟨hclosed, hall⟩ := h.marks j v pos i hv hi hmark
    have hik : i ≠ k := by
      rintro rfl
      simp [hopen] at hclosed
    rw [update_same Traffic.received hreceived, Function.update_of_ne hik]
    exact ⟨hclosed, hall⟩

/-- An operator receives an item: the row that was on its way, or the closing mark of an operator
that closed its output. -/
theorem take (h : n.OnCourse tasks traffic) (hs : n.Sound output) (hw : n.workers[k]? = some w)
    {s : Stage} {waiting : Bool} (hlife : w.life = .working s waiting) {input : Nat} {item : Item}
    (hwant : s.want = .receive input) (hi : w.inputs[input]? = some i)
    (hc : n.channels[i]? = some c) (hslot : c.slot = some item) :
    ((n.setChannel i { c with slot := none, finished := item.isEnd }).setLife k w
      (.working (s.accept item) false)).OnCourse tasks
      (Function.update traffic k ((traffic k).note (.receive input) (.item item))) := by
  have hbegun : (traffic k).ended input = false := by
    obtain ⟨op, hbefore⟩ := h.exists_course hw
    rw [hlife] at hbefore
    exact Operator.ended_of_wanted hbefore hwant
  let after := (traffic k).note (.receive input) (.item item)
  have hsent : after.sent = (traffic k).sent := ((traffic k).note_receive_out input item).1
  have hclosed : after.closed = (traffic k).closed := ((traffic k).note_receive_out input item).2
  -- the one input at which something has changed is read by nobody else
  have hplace : ∀ {j : Nat} {v : Worker} {pos : Nat}, n.workers[j]? = some v →
      v.inputs[pos]? = some i → j = k ∧ pos = input := fun hv hpos =>
    hs.reader _ _ _ _ _ _ _ hv hpos hw hi
  have hother : ∀ {j : Nat} {v : Worker} {pos l : Nat}, n.workers[j]? = some v →
      v.inputs[pos]? = some l → l ≠ i →
        (Function.update traffic k after j).received pos = (traffic j).received pos ∧
          (Function.update traffic k after j).ended pos = (traffic j).ended pos := by
    intro j v pos l hv hl hne
    by_cases hj : j = k
    · subst hj
      rw [hw] at hv
      cases hv
      have hpos : pos ≠ input := by
        rintro rfl
        rw [hi] at hl
        exact hne (Option.some.inj hl).symm
      rw [Function.update_self]
      exact (traffic j).note_receive_of_ne item hpos
    · rw [Function.update_of_ne hj]
      exact ⟨rfl, rfl⟩
  have hrows : (traffic k).received input ++ item.before [] = (traffic i).sent := by
    rw [← h.rows k w input i c hw hi hc, Channel.held, hslot]
    cases item <;> rfl
  obtain ⟨hreceived, hended⟩ := (traffic k).note_receive_self input item
  refine h.goesOn hw rfl ?_ ?_ ?_
  · intro op hbefore
    rw [hlife] at hbefore
    exact hbefore.receive hwant item
  · intro j v pos l cl hv hl hcl
    rw [channels_update hc] at hcl
    rw [update_same Traffic.sent hsent]
    split at hcl
    · rename_i hli
      subst hli
      obtain ⟨rfl, rfl⟩ := hplace hv hl
      cases hcl
      rw [Function.update_self, Channel.held_of_empty rfl, List.append_nil, hreceived, hrows]
    · rename_i hli
      rw [(hother hv hl hli).1]
      exact h.rows j v pos l cl hv hl hcl
  · intro j v pos l hv hl hmark
    rw [update_same Traffic.sent hsent, update_same Traffic.closed hclosed]
    by_cases hli : l = i
    · subst hli
      obtain ⟨rfl, rfl⟩ := hplace hv hl
      rw [Function.update_self] at hmark ⊢
      rw [hended, hbegun, Bool.false_or] at hmark
      refine ⟨?_, by rw [hreceived, hrows]⟩
      -- the mark lies in the slot only if the operator that sent it has ended well
      refine h.closed_of_channel hs hc (.inr ?_)
      rw [hslot]
      cases item with
      | row r => cases hmark
      | endOfStream => rfl
    · rw [(hother hv hl hli).2] at hmark
      rw [(hother hv hl hli).1]
      exact h.marks j v pos l hv hl hmark

/-- **A step takes operators on along their courses.** -/
theorem step (h : n.OnCourse tasks traffic) (hs : n.Sound output) {m : Move}
    (hstep : n.step k m = some n') : ∃ traffic', n'.OnCourse tasks traffic' := by
  obtain ⟨w, hw, hcases⟩ := step_cases hs hstep
  by_cases hfails : ∃ s waiting d, w.life = .working s waiting ∧ s.want = .fail d
  · obtain ⟨s, waiting, d, hlife, hwant⟩ := hfails
    obtain rfl := step_of_fail hs hw hlife hwant hstep
    refine ⟨traffic, h.setLife hw ?_⟩
    rw [hlife]
    exact fun op hcourse => hcourse.crash hwant
  cases hcases with
  | wait hlife _ =>
      refine ⟨traffic, h.setLife hw ?_⟩
      rw [hlife]
      exact fun _ hcourse => hcourse
  | @halt s waiting o hlife hwhy =>
      have hgoes : ∀ d, s.want ≠ .fail d := fun d hwant => hfails ⟨s, waiting, d, hlife, hwant⟩
      refine ⟨traffic, h.setLife hw ?_⟩
      rw [hlife]
      intro op hcourse
      cases hwhy with
      | crashed hwant => exact absurd hwant (hgoes _)
      | cancelled _ => exact hcourse.fail hgoes .cancelled
      | consumerClosed _ _ => exact hcourse.fail hgoes .consumerClosed
      | producerStopped _ _ _ _ _ => exact hcourse.fail hgoes .producerStopped
  | receive hlife hwant hi hc hslot => exact ⟨_, h.take hs hw hlife hwant hi hc hslot⟩
  | @send s after row c hlife hwant hc _ hslot =>
      have hheld : Channel.held { c with slot := some (.row row) } = c.held ++ [row] := by
        rw [Channel.held_of_row rfl, Channel.held_of_empty hslot, List.nil_append]
      exact ⟨Function.update traffic k { traffic k with sent := (traffic k).sent ++ [row] },
        h.put hw hlife hc hheld rfl rfl rfl fun _ hcourse => hcourse.send hwant⟩
  | @close s c hlife hwant hc _ hslot =>
      have hheld : Channel.held { c with slot := some .endOfStream } = c.held ++ [] := by
        rw [Channel.held_of_empty hslot]
        rfl
      exact ⟨Function.update traffic k { traffic k with closed := true },
        h.put hw hlife hc hheld (List.append_nil _).symm rfl rfl
          fun _ hcourse => hcourse.close hwant⟩
  | @dropSource o sources sink i c hlife hi hc =>
      have hsame : (n.setChannel i c.dropConsumer).OnCourse tasks traffic := h.setChannel hc rfl
      refine ⟨traffic, hsame.setLife hw ?_⟩
      rw [hlife]
      exact fun _ hcourse => hcourse
  | @dropSink o sources c hlife hc =>
      have hsame : (n.setChannel k c.dropProducer).OnCourse tasks traffic := h.setChannel hc rfl
      refine ⟨traffic, hsame.setLife hw ?_⟩
      rw [hlife]
      exact fun _ hcourse => hcourse
  | @finish o hlife =>
      obtain ⟨b, hb⟩ := finish_eq n k w o
      have hdone : (n.setLife k w (.done o)).OnCourse tasks traffic := by
        refine h.setLife hw ?_
        rw [hlife]
        exact fun _ hcourse => hcourse
      rw [hb]
      exact ⟨traffic, hdone.of_held rfl fun _ _ _ c' _ _ hc' => ⟨c', hc', rfl⟩⟩

end OnCourse

/-- Before the first step nothing has passed. -/
theorem onCourse_ofAssembly (a : Assembly) : (ofAssembly a).OnCourse a.tasks fun _ => .none where
  size := by simp [ofAssembly]
  course := by
    intro k t w ht hw
    obtain ⟨t', ht', rfl⟩ := workers_ofAssembly hw
    rw [ht] at ht'
    cases ht'
    exact ⟨rfl, .begins⟩
  rows := by
    intro k w pos i c _ _ hc
    obtain rfl := channels_ofAssembly hc
    rfl
  marks := by
    intro k w pos i _ _ hended
    cases hended

/-- **From the leaves up, what an operator has sent is a beginning of what its node yields**, and
all of it once its output is closed.  The inputs of a task have smaller numbers, on which the
induction is. -/
theorem OnCourse.sent_of_yields {n : Network} {a : Assembly} {traffic : Nat → Traffic}
    {p : Plan} {cat : Catalog} {schemas : List Schema} (h : n.OnCourse a.tasks traffic)
    (hs : n.Sound a.output) (hl : Assembly.Layout p cat a.tasks schemas [a.output]) :
    ∀ {k : Nat} {t : Task} {rows : List Row}, a.tasks[k]? = some t → p.Yields cat t.node rows →
      (traffic k).sent <+: rows ∧ ((traffic k).closed = true → (traffic k).sent = rows) := by
  intro k
  induction k using Nat.strong_induction_on with
  | _ k ih =>
      intro t rows ht hyields
      have hlaid := hl.laid k t ht
      obtain ⟨op, ops, schema, hnode, hcount, -, -, hop⟩ := hlaid.operation
      obtain ⟨ins, hfeeds, hrest⟩ :=
        Assembly.rest_of_yields hnode hcount (Assembly.realizes_of_operator hop) hyields
      have hk : k < n.workers.length := h.size ▸ (List.getElem?_eq_some_iff.mp ht).1
      obtain ⟨w, hw⟩ : ∃ w, n.workers[k]? = some w := ⟨_, List.getElem?_eq_getElem hk⟩
      obtain ⟨hinputs, hcourse⟩ := h.course k t w ht hw
      have hins : ∀ pos < t.operator.inputCount, (traffic k).received pos <+: ins pos ∧
          ((traffic k).ended pos = true → ins pos = (traffic k).received pos) := by
        intro pos hpos
        rw [← hlaid.arity] at hpos
        have hpos' : pos < (p.inputs t.node).length := hlaid.inputs.length_eq.symm ▸ hpos
        obtain ⟨u, hu, hun⟩ := hlaid.inputs.get hpos' hpos
        have hi : w.inputs[pos]? = some t.inputs[pos] := by
          rw [hinputs, List.getElem?_eq_getElem hpos]
        have hfed : p.Yields cat u.node (ins pos) := by
          rw [hun]
          exact hfeeds pos _ (List.getElem?_eq_getElem hpos')
        obtain ⟨hbegin, hall⟩ := ih _ (hlaid.earlier _ (List.getElem_mem hpos)) hu hfed
        obtain ⟨c, hc⟩ := hs.channel_of_input hw (List.mem_of_getElem? hi)
        refine ⟨List.IsPrefix.trans ⟨c.held, h.rows k w pos _ c hw hi hc⟩ hbegin, ?_⟩
        intro hended
        obtain ⟨hclosed, hreceived⟩ := h.marks k w pos _ hw hi hended
        rw [hreceived, ← hall hclosed]
      obtain ⟨hstart, hclosed⟩ := Operator.beginning_of_course hcourse hins
      rw [Operator.answer_of_rest hrest] at hstart hclosed
      exact ⟨hstart, fun hc => (congrArg Flow.rows (hclosed hc)).symm⟩

end Network

namespace Executor

variable {e e' e₀ : Executor} {q : Nat} {a : Assembly} {n n' : Network} {event : Event}
  {traffic : Nat → Traffic} {p : Plan} {cat : Catalog}

/-- **Whatever happens to a query takes its operators on along their courses.** -/
theorem Tick.onCourse (htick : Tick e q a n event e' n') (hserves : e.Serves q a n)
    (h : n.OnCourse a.tasks traffic) : ∃ traffic', n'.OnCourse a.tasks traffic' := by
  have hcancel : n.cancel.OnCourse a.tasks traffic :=
    h.of_held rfl fun _ _ _ c _ _ hc => ⟨c, hc, rfl⟩
  cases htick with
  | worker _ _ _ _ hmove =>
      obtain ⟨m, -, hmove⟩ := hmove
      exact h.step hserves.sound hmove
  | cancel _ _ => exact ⟨traffic, hcancel⟩
  | @take c item _ hc _ _ =>
      -- no worker reads the answer
      refine ⟨traffic, h.of_held rfl ?_⟩
      intro k w i ci hw hi hci
      have hne : i ≠ a.output := by
        rintro rfl
        exact hserves.sound.unread k w hw hi
      rw [Network.channels_setChannel hc, if_neg hne] at hci
      exact ⟨ci, hci, rfl⟩
  | drain _ hn _ =>
      rcases hn with ⟨rfl, -⟩ | ⟨rfl, -⟩
      · exact ⟨traffic, h⟩
      · exact ⟨traffic, hcancel⟩
  | finish _ hworkers hslots =>
      refine ⟨traffic, h.of_held hworkers ?_⟩
      intro _ _ i c' _ _ hc'
      have hsame := hslots i
      rw [hc', Option.map_some, eq_comm, Option.map_eq_some_iff] at hsame
      obtain ⟨c, hc, hslot⟩ := hsame
      exact ⟨c, hc, by rw [Channel.held, Channel.held, hslot]⟩
  | _ => exact ⟨traffic, h⟩

theorem Session.onCourse (hrest : e₀.AtRest) (ha : p.assemble cat = .ok a)
    (h : Session e₀ a e) :
    ∃ n traffic, e.Serves e₀.queries.length a n ∧ n.OnCourse a.tasks traffic := by
  induction h with
  | configured => exact ⟨_, _, serves_configure hrest ha, Network.onCourse_ofAssembly a⟩
  | act α hbefore hact ih =>
      obtain ⟨n, traffic, hn, hcourse⟩ := ih
      cases α with
      | event event =>
          obtain ⟨n', htick⟩ := step_tick hn hact
          obtain ⟨traffic', hcourse'⟩ := htick.onCourse hn hcourse
          exact ⟨n', traffic', htick.serves hn, hcourse'⟩
      | call r =>
          obtain rfl := act_call hact
          obtain ⟨n', hn', rfl | rfl⟩ := hn.call_cases r
          · exact ⟨_, traffic, hn', hcourse⟩
          · exact ⟨_, traffic, hn', hcourse.of_held rfl fun _ _ _ c _ _ hc => ⟨c, hc, rfl⟩⟩

/-- **Operators of a query send beginnings of the rows of their nodes.**

An executor at rest is given a query.  In every state that the query goes through, whatever its
caller asked and whatever was cancelled, each operator is where the traffic of its channels has
taken it, and the traffic of operators that are joined by a channel fits together.  What an operator
has sent is a beginning of the rows that its node yields, and all of them once its output is
closed. -/
theorem operators_send_beginnings (hrest : e₀.AtRest) (ha : p.assemble cat = .ok a)
    (h : Session e₀ a e) :
    ∃ n traffic, e.queries[e₀.queries.length]? = some ⟨n, a.output⟩ ∧
      n.OnCourse a.tasks traffic ∧
      ∀ (k : Nat) (t : Task) (rows : List Row), a.tasks[k]? = some t →
        p.Yields cat t.node rows →
          (traffic k).sent <+: rows ∧ ((traffic k).closed = true → (traffic k).sent = rows) := by
  obtain ⟨root, schemas, t, -, hl, -, -, -⟩ := Assembly.layout_of_assemble ha
  obtain ⟨n, traffic, hn, hcourse⟩ := h.onCourse hrest ha
  exact ⟨n, traffic, hn.query, hcourse, fun _ _ _ => hcourse.sent_of_yields hn.sound hl⟩

end Executor

end StreamQuery
