/-
One channel between a producer, a consumer and whoever cancels.

Here producer, consumer and cancellation are interleaved in any order.  A call begins
by looking whether it can be answered at once; otherwise it waits, and it ends later,
by the slot or by the cancellation, whichever is chosen when both are possible.  Either
half may be dropped between calls.  Every call leaves its beginning and its result in a
log.

What carries all the rest is one equation, `Exchange.Balanced.accepted_eq`: the items
that were accepted are those that were received, followed by the one in the slot.  No
act breaks it.  That the closing mark is the last item that is accepted comes from the
producer half, which is used up by closing.
-/
import StreamQuery.Channel.Session
import StreamQuery.Proofs.Channel.Slot

namespace StreamQuery

open Session

/-- A channel whose halves are in use, and whether it was cancelled. -/
structure Exchange where
  cancelled : Bool
  line : Line

namespace Exchange

/-- What can happen next. -/
inductive Act where
  /-- The producer begins to put a row, or the closing mark. -/
  | offer (item : Item)
  /-- A put that waits uses the slot, or finds that nobody will take its item. -/
  | put
  | giveUpPut
  | dropSink
  /-- The consumer begins to receive. -/
  | ask
  /-- A take that waits uses the slot, or finds that no item will come. -/
  | take
  | giveUpTake
  | dropSource
  | cancel
deriving Repr

/-- What a call leaves in the log. -/
inductive Entry where
  | offered (item : Item)
  | sent (item : Item) (result : Except ChannelError Unit)
  | asked
  | received (result : Except ChannelError Item)
  | cancelled

/-- An exchange before its first act. -/
def new : Exchange := ⟨false, ⟨.new, .ready, .ready⟩⟩

/-- One act, with what it leaves in the log; none if it cannot happen. -/
def step (e : Exchange) : Act → Option (Exchange × List Entry)
  | .offer item =>
    match e.line.sink with
    | .ready =>
      match Channel.beginPut e.cancelled with
      | some err =>
        some ({ e with line := e.line.afterPut e.line.channel item },
          [.offered item, .sent item (.error err)])
      | none => some ({ e with line := { e.line with sink := .blocked item } }, [.offered item])
    | _ => none
  | .put =>
    match e.line.sink with
    | .blocked item =>
      match e.line.channel.put? item with
      | some (r, c) => some ({ e with line := e.line.afterPut c item }, [.sent item r])
      | none => none
    | _ => none
  | .giveUpPut =>
    match e.line.sink with
    | .blocked item =>
      if e.cancelled then
        some ({ e with line := e.line.afterPut e.line.channel item },
          [.sent item (.error .cancelled)])
      else none
    | _ => none
  | .dropSink =>
    match e.line.sink with
    | .ready =>
      some ({ e with
        line := { e.line with channel := e.line.channel.dropProducer, sink := .gone } }, [])
    | _ => none
  | .ask =>
    match e.line.source with
    | .ready =>
      match e.line.channel.beginTake e.cancelled with
      | some r => some (e, [.asked, .received r])
      | none => some ({ e with line := { e.line with source := .blocked } }, [.asked])
    | _ => none
  | .take =>
    match e.line.source with
    | .blocked =>
      match e.line.channel.take? with
      | some (r, c) =>
        some ({ e with line := { e.line with channel := c, source := .ready } }, [.received r])
      | none => none
    | _ => none
  | .giveUpTake =>
    match e.line.source with
    | .blocked =>
      if e.cancelled then
        some ({ e with line := { e.line with source := .ready } }, [.received (.error .cancelled)])
      else none
    | _ => none
  | .dropSource =>
    match e.line.source with
    | .ready =>
      some ({ e with
        line := { e.line with channel := e.line.channel.dropConsumer, source := .gone } }, [])
    | _ => none
  | .cancel => some ({ e with cancelled := true }, [.cancelled])

/-- The acts in their order, with the log of them all. -/
def run (e : Exchange) : List Act → Option (Exchange × List Entry)
  | [] => some (e, [])
  | α :: acts =>
    match e.step α with
    | some (e', entries) => (run e' acts).map fun (e'', log) => (e'', entries ++ log)
    | none => none

/-! ### Reading a log -/

/-- The items whose put succeeded. -/
def accepted (log : List Entry) : List Item :=
  log.filterMap fun
    | .sent item (.ok _) => some item
    | _ => none

/-- The rows among these items. -/
def rowsOf (items : List Item) : List Row :=
  items.filterMap fun
    | .row r => some r
    | .endOfStream => none

/-- The rows whose send succeeded. -/
def acceptedRows (log : List Entry) : List Row :=
  rowsOf (accepted log)

/-- The rows that were received. -/
def receivedRows (log : List Entry) : List Row :=
  log.filterMap fun
    | .received (.ok (.row r)) => some r
    | _ => none

/-- The closing mark was received. -/
def ended (log : List Entry) : Bool :=
  log.any fun
    | .received (.ok .endOfStream) => true
    | _ => false

/-- The items that were received.  The closing mark, which comes again whenever it is asked for,
counts once. -/
def taken (log : List Entry) : List Item :=
  (receivedRows log).map .row ++ if ended log then [.endOfStream] else []

theorem accepted_append (log log' : List Entry) :
    accepted (log ++ log') = accepted log ++ accepted log' :=
  List.filterMap_append

theorem receivedRows_append (log log' : List Entry) :
    receivedRows (log ++ log') = receivedRows log ++ receivedRows log' :=
  List.filterMap_append

theorem ended_append (log log' : List Entry) : ended (log ++ log') = (ended log || ended log') :=
  List.any_append

/-- What brings no item leaves what was received. -/
theorem taken_append_nothing {log log' : List Entry} (hrows : receivedRows log' = [])
    (hended : ended log' = false) : taken (log ++ log') = taken log := by
  unfold taken
  rw [receivedRows_append, ended_append, hrows, hended, List.append_nil, Bool.or_false]

theorem taken_append_item {log : List Entry} (hended : ended log = false) (item : Item) :
    taken (log ++ [.received (.ok item)]) = taken log ++ [item] := by
  unfold taken
  rw [receivedRows_append, ended_append, hended]
  cases item with
  | row r => simp [receivedRows, ended]
  | endOfStream => simp [receivedRows, ended]

theorem taken_append_again {log : List Entry} (hended : ended log = true) :
    taken (log ++ [.asked, .received (.ok .endOfStream)]) = taken log := by
  unfold taken
  rw [receivedRows_append, ended_append, hended]
  simp [receivedRows]

theorem rowsOf_append (items items' : List Item) :
    rowsOf (items ++ items') = rowsOf items ++ rowsOf items' :=
  List.filterMap_append

theorem rowsOf_map_row (rows : List Row) : rowsOf (rows.map .row) = rows := by
  induction rows with
  | nil => rfl
  | cons r rows ih => exact congrArg (r :: ·) ih

theorem rowsOf_taken (log : List Entry) : rowsOf (taken log) = receivedRows log := by
  unfold taken
  rw [rowsOf_append, rowsOf_map_row]
  split
  · exact List.append_nil _
  · exact List.append_nil _

theorem mem_rowsOf {items : List Item} {r : Row} (h : r ∈ rowsOf items) : .row r ∈ items := by
  obtain ⟨item, hitem, hr⟩ := List.mem_filterMap.mp h
  cases item with
  | row r' =>
      cases hr
      exact hitem
  | endOfStream => cases hr

theorem mem_accepted {log : List Entry} {item : Item} (h : item ∈ accepted log) :
    .sent item (.ok ()) ∈ log := by
  obtain ⟨entry, hentry, hitem⟩ := List.mem_filterMap.mp h
  rcases entry with _ | ⟨item', result⟩ | _ | _ | _
  · simp at hitem
  · cases result with
    | error err => cases hitem
    | ok u =>
        cases hitem
        exact hentry
  · simp at hitem
  · simp at hitem
  · simp at hitem

theorem mem_receivedRows {log : List Entry} {r : Row} (h : .received (.ok (.row r)) ∈ log) :
    r ∈ receivedRows log :=
  List.mem_filterMap.mpr ⟨_, h, rfl⟩

/-! ### What one act does -/

/-- What one act does to the channel and to the log. -/
inductive Effect (e e' : Exchange) (new : List Entry) : Prop where
  /-- Nothing is put and nothing is taken. -/
  | quiet (hslot : e'.line.channel.slot = e.line.channel.slot)
      (hfinished : e'.line.channel.finished = e.line.channel.finished)
      (hgone : e.line.sink = .gone → e'.line.sink = .gone)
      (hwaits : e'.line.source = .blocked → e'.line.channel.finished = false)
      (haccepted : accepted new = [])
      (hreceived : ∀ r, .received r ∈ new → e.line.channel.finished = false ∧ ∃ err, r = .error err)
  | accept {item : Item} (hsink : e.line.sink = .blocked item)
      (hslot : e.line.channel.slot = none) (hslot' : e'.line.channel.slot = some item)
      (hfinished : e'.line.channel.finished = e.line.channel.finished)
      (hsource : e'.line.source = e.line.source)
      (hclosing : item = .endOfStream → e'.line.sink = .gone)
      (hnew : new = [.sent item (.ok ())])
  | take {item : Item} (hsource : e.line.source = .blocked)
      (hslot : e.line.channel.slot = some item) (hslot' : e'.line.channel.slot = none)
      (hfinished : e'.line.channel.finished = item.isEnd)
      (hsource' : e'.line.source = .ready) (hsink : e'.line.sink = e.line.sink)
      (hnew : new = [.received (.ok item)])
  /-- The closing mark comes again. -/
  | again (hfinished : e.line.channel.finished = true) (hsame : e' = e)
      (hnew : new = [.asked, .received (.ok .endOfStream)])

variable {e e' : Exchange} {α : Act} {log new : List Entry}

theorem afterPut_slot (l : Line) (c : Channel) (item : Item) :
    (l.afterPut c item).channel.slot = c.slot ∧
      (l.afterPut c item).channel.finished = c.finished ∧
      (l.afterPut c item).source = l.source ∧
      (item = .endOfStream → (l.afterPut c item).sink = .gone) := by
  unfold Line.afterPut
  cases item with
  | row r => exact ⟨rfl, rfl, rfl, fun h => by cases h⟩
  | endOfStream => exact ⟨rfl, rfl, rfl, fun _ => rfl⟩

/-- A put that fails, by whatever it fails, puts nothing. -/
theorem effect_of_failed_put (hwaits : e.line.source = .blocked → e.line.channel.finished = false)
    (hsink : e.line.sink ≠ .gone) {item : Item} {err : ChannelError} :
    Effect e { e with line := e.line.afterPut e.line.channel item }
      [.sent item (.error err)] := by
  obtain ⟨hslot, hfinished, hsource, -⟩ := afterPut_slot e.line e.line.channel item
  refine .quiet hslot hfinished (fun h => absurd h hsink) ?_ rfl ?_
  · intro h
    exact hfinished.trans (hwaits (hsource.symm.trans h))
  · intro r hr
    simp at hr

theorem offer_effect (hwaits : e.line.source = .blocked → e.line.channel.finished = false)
    {item : Item} (hstep : e.step (.offer item) = some (e', new)) : Effect e e' new := by
  simp only [step] at hstep
  split at hstep
  · rename_i hsink
    split at hstep
    · cases hstep
      obtain ⟨hslot, hfinished, hsource, -⟩ := afterPut_slot e.line e.line.channel item
      refine .quiet hslot hfinished ?_ ?_ rfl (fun r hr => by simp at hr)
      · intro h
        rw [hsink] at h
        simp at h
      · intro h
        exact hfinished.trans (hwaits (hsource.symm.trans h))
    · cases hstep
      refine .quiet rfl rfl ?_ hwaits rfl (fun r hr => by simp at hr)
      intro h
      rw [hsink] at h
      simp at h
  · simp at hstep

theorem put_effect (hwaits : e.line.source = .blocked → e.line.channel.finished = false)
    (hstep : e.step .put = some (e', new)) : Effect e e' new := by
  simp only [step] at hstep
  split at hstep
  · rename_i item hsink
    split at hstep
    · rename_i r c hput
      cases hstep
      rcases Channel.put?_cases hput with ⟨-, rfl, rfl⟩ | ⟨-, hslot, rfl, rfl⟩
      · exact effect_of_failed_put hwaits (by rw [hsink]; simp)
      · obtain ⟨hslot', hfinished, hsource, hclosing⟩ :=
          afterPut_slot e.line { e.line.channel with slot := some item } item
        exact .accept hsink hslot hslot' hfinished hsource hclosing rfl
    · simp at hstep
  · simp at hstep

theorem take_effect (hwaits : e.line.source = .blocked → e.line.channel.finished = false)
    (hstep : e.step .take = some (e', new)) : Effect e e' new := by
  simp only [step] at hstep
  split at hstep
  · rename_i hsource
    split at hstep
    · rename_i r c htake
      cases hstep
      rcases Channel.take?_cases htake with ⟨-, -, rfl, rfl⟩ | ⟨item, hslot, rfl, rfl⟩
      · refine .quiet rfl rfl id (fun h => by cases h) rfl ?_
        intro r hr
        obtain rfl : r = .error .producerStopped := by simpa using hr
        exact ⟨hwaits hsource, _, rfl⟩
      · exact .take hsource hslot rfl rfl rfl rfl rfl
    · simp at hstep
  · simp at hstep

theorem ask_effect (hwaits : e.line.source = .blocked → e.line.channel.finished = false)
    (hstep : e.step .ask = some (e', new)) : Effect e e' new := by
  simp only [step] at hstep
  split at hstep
  · rcases e.line.channel.beginTake_cases e.cancelled with
      ⟨hf, hb⟩ | ⟨hf, -, hb⟩ | ⟨hf, -, hb⟩
    · rw [hb] at hstep
      cases hstep
      exact .again hf rfl rfl
    · rw [hb] at hstep
      cases hstep
      refine .quiet rfl rfl id hwaits rfl ?_
      intro r hr
      obtain rfl : r = .error .cancelled := by simpa using hr
      exact ⟨hf, _, rfl⟩
    · rw [hb] at hstep
      cases hstep
      exact .quiet rfl rfl id (fun _ => hf) rfl (fun r hr => by simp at hr)
  · simp at hstep

/-- Every act has one of these effects. -/
theorem step_effect (hwaits : e.line.source = .blocked → e.line.channel.finished = false)
    (hstep : e.step α = some (e', new)) : Effect e e' new := by
  cases α with
  | offer item => exact offer_effect hwaits hstep
  | put => exact put_effect hwaits hstep
  | ask => exact ask_effect hwaits hstep
  | take => exact take_effect hwaits hstep
  | giveUpPut =>
      simp only [step] at hstep
      split at hstep
      · rename_i item hsink
        split at hstep
        · cases hstep
          exact effect_of_failed_put hwaits (by rw [hsink]; simp)
        · simp at hstep
      · simp at hstep
  | dropSink =>
      simp only [step] at hstep
      split at hstep
      · cases hstep
        exact .quiet rfl rfl (fun _ => rfl) hwaits rfl (fun r hr => by simp at hr)
      · simp at hstep
  | giveUpTake =>
      simp only [step] at hstep
      split at hstep
      · rename_i hsource
        split at hstep
        · cases hstep
          refine .quiet rfl rfl id (fun h => by cases h) rfl ?_
          intro r hr
          obtain rfl : r = .error .cancelled := by simpa using hr
          exact ⟨hwaits hsource, _, rfl⟩
        · simp at hstep
      · simp at hstep
  | dropSource =>
      simp only [step] at hstep
      split at hstep
      · cases hstep
        exact .quiet rfl rfl id (fun h => by cases h) rfl (fun r hr => by simp at hr)
      · simp at hstep
  | cancel =>
      cases hstep
      exact .quiet rfl rfl id hwaits rfl (fun r hr => by simp at hr)

/-! ### What every act preserves -/

/-- How an exchange and its log stand to each other, at any time. -/
structure Balanced (e : Exchange) (log : List Entry) : Prop where
  /-- What was accepted was received, but for what is in the slot. -/
  accepted_eq : accepted log = taken log ++ e.line.channel.slot.toList
  ended_eq : ended log = e.line.channel.finished
  spent : e.line.channel.finished = true → e.line.channel.slot = none
  /-- Nobody waits for what comes behind the closing mark. -/
  waits : e.line.source = .blocked → e.line.channel.finished = false
  /-- The producer half is used up by closing. -/
  closed : .endOfStream ∈ accepted log → e.line.sink = .gone

theorem balanced_new : Balanced Exchange.new [] where
  accepted_eq := rfl
  ended_eq := rfl
  spent := by intro h; cases h
  waits := by intro h; cases h
  closed := by intro h; cases h

/-- Only a successful receipt shows in what was received. -/
theorem received_nothing (h : ∀ r, Entry.received r ∈ new → ∃ err, r = .error err) :
    receivedRows new = [] ∧ ended new = false := by
  refine ⟨List.filterMap_eq_nil_iff.mpr ?_, List.any_eq_false.mpr ?_⟩
  · intro entry hmem
    cases entry with
    | received r =>
        obtain ⟨err, rfl⟩ := h r hmem
        rfl
    | _ => rfl
  · intro entry hmem
    cases entry with
    | received r =>
        obtain ⟨err, rfl⟩ := h r hmem
        simp
    | _ => simp

/-- Before the closing mark was taken, the producer may still be at work. -/
theorem Balanced.not_finished (h : Balanced e log) (hsink : e.line.sink ≠ .gone) :
    e.line.channel.finished = false := by
  cases hf : e.line.channel.finished with
  | false => rfl
  | true =>
      refine absurd (h.closed ?_) hsink
      rw [h.accepted_eq, taken, h.ended_eq, hf]
      simp

/-- **No act breaks the balance.** -/
theorem Effect.balanced (heffect : Effect e e' new) (h : Balanced e log) :
    Balanced e' (log ++ new) := by
  cases heffect with
  | quiet hslot hfinished hgone hwaits haccepted hreceived =>
      obtain ⟨hrows, hended⟩ := received_nothing fun r hr => (hreceived r hr).2
      have htaken : taken (log ++ new) = taken log := taken_append_nothing hrows hended
      have hall : accepted (log ++ new) = accepted log := by
        rw [accepted_append, haccepted, List.append_nil]
      refine ⟨?_, ?_, ?_, hwaits, ?_⟩
      · rw [hall, htaken, hslot]
        exact h.accepted_eq
      · rw [ended_append, hended, Bool.or_false, hfinished]
        exact h.ended_eq
      · rw [hfinished, hslot]
        exact h.spent
      · intro hmem
        rw [hall] at hmem
        exact hgone (h.closed hmem)
  | @accept item hsink hslot hslot' hfinished hsource hclosing hnew =>
      subst hnew
      have hopen := h.not_finished (by rw [hsink]; simp)
      have htaken : taken (log ++ [.sent item (.ok ())]) = taken log :=
        taken_append_nothing rfl rfl
      refine ⟨?_, ?_, ?_, ?_, ?_⟩
      · rw [accepted_append, htaken, h.accepted_eq, hslot, hslot']
        simp [accepted]
      · rw [ended_append, hfinished, ← h.ended_eq]
        simp [ended]
      · rw [hfinished, hopen]
        intro hf
        simp at hf
      · rw [hfinished, hopen]
        exact fun _ => rfl
      · intro hmem
        rw [accepted_append] at hmem
        rcases List.mem_append.mp hmem with hmem | hmem
        · rw [h.closed hmem] at hsink
          simp at hsink
        · exact hclosing (by simpa [accepted, eq_comm] using hmem)
  | @take item hsource hslot hslot' hfinished hsource' hsink hnew =>
      subst hnew
      have hopen := h.waits hsource
      have hended : ended log = false := by rw [h.ended_eq, hopen]
      have htaken := taken_append_item hended item
      have hall : accepted (log ++ [.received (.ok item)]) = accepted log := by
        rw [accepted_append]
        simp [accepted]
      refine ⟨?_, ?_, fun _ => hslot', ?_, ?_⟩
      · rw [hall, htaken, h.accepted_eq, hslot, hslot']
        simp
      · rw [ended_append, hended, hfinished]
        cases item <;> rfl
      · rw [hsource']
        intro hb
        simp at hb
      · intro hmem
        rw [hall] at hmem
        rw [hsink]
        exact h.closed hmem
  | again hf hsame hnew =>
      subst hsame hnew
      have hended : ended log = true := by rw [h.ended_eq, hf]
      have htaken := taken_append_again hended
      have hall : accepted (log ++ [.asked, .received (.ok .endOfStream)]) = accepted log := by
        rw [accepted_append]
        simp [accepted]
      refine ⟨?_, ?_, h.spent, h.waits, ?_⟩
      · rw [hall, htaken]
        exact h.accepted_eq
      · rw [ended_append, hended, hf]
        rfl
      · intro hmem
        rw [hall] at hmem
        exact h.closed hmem

/-! ### Whole runs -/

/-- What every act preserves holds after every run, and may speak of the acts. -/
theorem run_keeps {P : Exchange → List Act → List Entry → Prop}
    (hstep : ∀ (e : Exchange) (acts : List Act) (log : List Entry) (α : Act) (e' : Exchange)
      (new : List Entry), P e acts log → e.step α = some (e', new) →
        P e' (acts ++ [α]) (log ++ new)) (before : List Act) {acts : List Act} {more : List Entry}
    (hrun : e.run acts = some (e', more)) (h : P e before log) :
    P e' (before ++ acts) (log ++ more) := by
  induction acts generalizing e before log more with
  | nil =>
      cases hrun
      rw [List.append_nil, List.append_nil]
      exact h
  | cons α acts ih =>
      simp only [run] at hrun
      split at hrun
      · rename_i e₁ new hα
        obtain ⟨⟨e₂, rest⟩, hrest, heq⟩ := Option.map_eq_some_iff.mp hrun
        cases heq
        rw [← List.append_assoc, List.append_cons]
        exact ih _ hrest (hstep e before log α e₁ new h hα)
      · simp at hrun

/-- What every act preserves holds after every run. -/
theorem run_preserves {P : Exchange → List Entry → Prop}
    (hstep : ∀ (e : Exchange) (log : List Entry) (α : Act) (e' : Exchange) (new : List Entry),
      P e log → e.step α = some (e', new) → P e' (log ++ new)) {acts : List Act}
    {more : List Entry} (hrun : e.run acts = some (e', more)) (h : P e log) :
    P e' (log ++ more) :=
  run_keeps (P := fun e _ log => P e log) (fun e _ log α e' new => hstep e log α e' new) [] hrun h

theorem run_append {e'' : Exchange} {first second : List Act} {more : List Entry}
    (hfirst : e.run first = some (e', log)) (hsecond : e'.run second = some (e'', more)) :
    e.run (first ++ second) = some (e'', log ++ more) := by
  induction first generalizing e log with
  | nil =>
      cases hfirst
      exact hsecond
  | cons α acts ih =>
      simp only [run, List.cons_append] at hfirst ⊢
      split at hfirst
      · rename_i e₁ new hα
        obtain ⟨⟨e₂, rest⟩, hrest, heq⟩ := Option.map_eq_some_iff.mp hfirst
        cases heq
        simp only [ih hrest, Option.map_some, List.append_assoc]
      · simp at hfirst

theorem Balanced.step (h : Balanced e log) (hstep : e.step α = some (e', new)) :
    Balanced e' (log ++ new) :=
  (step_effect h.waits hstep).balanced h

theorem Balanced.run (h : Balanced e log) {acts : List Act} {more : List Entry}
    (hrun : e.run acts = some (e', more)) : Balanced e' (log ++ more) :=
  run_preserves (P := Balanced) (fun _ _ _ _ _ h hα => h.step hα) hrun h

theorem balanced_of_run {acts : List Act} (hrun : Exchange.new.run acts = some (e, log)) :
    Balanced e log :=
  balanced_new.run hrun

/-! ### What a balance says -/

/-- The rows that were accepted are those that were received, and then the one in the slot. -/
theorem Balanced.rows_eq (h : Balanced e log) :
    acceptedRows log = receivedRows log ++ e.line.channel.held := by
  have hheld : rowsOf e.line.channel.slot.toList = e.line.channel.held := by
    unfold Channel.held
    rcases e.line.channel.slot with - | item
    · rfl
    · cases item with
      | row r => rfl
      | endOfStream => rfl
  rw [acceptedRows, h.accepted_eq, rowsOf_append, rowsOf_taken, hheld]

/-- Once the closing mark was taken, it is the only answer, and nothing is put any more. -/
theorem Balanced.over_step (h : Balanced e log) (hf : e.line.channel.finished = true)
    (hstep : e.step α = some (e', new)) :
    e'.line.channel.finished = true ∧ accepted new = [] ∧
      ∀ r, .received r ∈ new → r = .ok .endOfStream := by
  cases step_effect h.waits hstep with
  | quiet hslot hfinished hgone hwaits haccepted hreceived =>
      refine ⟨hfinished.trans hf, haccepted, ?_⟩
      intro r hr
      rw [(hreceived r hr).1] at hf
      simp at hf
  | accept hsink hslot hslot' hfinished hsource hclosing hnew =>
      rw [h.not_finished (by rw [hsink]; simp)] at hf
      simp at hf
  | take hsource hslot hslot' hfinished hsource' hsink hnew =>
      rw [h.waits hsource] at hf
      simp at hf
  | again hfinished hsame hnew =>
      subst hsame hnew
      exact ⟨hf, rfl, fun r hr => by simpa using hr⟩

/-- Nothing is put any more, and whoever asks gets the closing mark. -/
def Over (e : Exchange) : Prop :=
  ∀ (acts : List Act) (e' : Exchange) (more : List Entry), e.run acts = some (e', more) →
    accepted more = [] ∧ ∀ r, .received r ∈ more → r = .ok .endOfStream

theorem Balanced.is_over (h : Balanced e log) (hf : e.line.channel.finished = true) : e.Over := by
  intro acts e' more hrun
  have hstart : Balanced e (log ++ []) ∧ e.line.channel.finished = true ∧
      accepted [] = [] ∧ ∀ r, .received r ∈ ([] : List Entry) → r = .ok .endOfStream := by
    refine ⟨?_, hf, rfl, fun r hr => by cases hr⟩
    rw [List.append_nil]
    exact h
  have hall := run_preserves
    (P := fun e more => Balanced e (log ++ more) ∧ e.line.channel.finished = true ∧
      accepted more = [] ∧ ∀ r, .received r ∈ more → r = .ok .endOfStream)
    (fun e₁ more α e₂ new h₁ hα => by
      obtain ⟨hb, hf₁, haccepted, hreceived⟩ := h₁
      obtain ⟨hf₂, haccepted', hreceived'⟩ := hb.over_step hf₁ hα
      refine ⟨?_, hf₂, ?_, ?_⟩
      · rw [← List.append_assoc]
        exact hb.step hα
      · rw [accepted_append, haccepted, haccepted', List.append_nil]
      · intro r hr
        exact (List.mem_append.mp hr).elim (hreceived r) (hreceived' r))
    hrun hstart
  exact hall.2.2

/-! ### Cancelling -/

theorem step_cancelled (hstep : e.step α = some (e', new))
    (h : e.cancelled = true ∨ .cancelled ∈ new) : e'.cancelled = true := by
  cases α with
  | cancel =>
      cases hstep
      rfl
  | _ =>
      simp only [step] at hstep
      grind

theorem cancelled_of_run {acts : List Act} (hrun : Exchange.new.run acts = some (e, log))
    (h : .cancelled ∈ log) : e.cancelled = true := by
  have hstart : .cancelled ∈ ([] : List Entry) → Exchange.new.cancelled = true := by
    intro hmem
    simp at hmem
  exact run_preserves (P := fun e log => .cancelled ∈ log → e.cancelled = true)
    (fun _ _ _ _ _ hP hα hmem =>
      step_cancelled hα ((List.mem_append.mp hmem).imp_left hP)) hrun hstart h

/-- A put that begins when all is cancelled fails. -/
theorem offer_of_cancelled (h : e.cancelled = true) {item : Item}
    (hstep : e.step (.offer item) = some (e', new)) :
    new = [.offered item, .sent item (.error .cancelled)] := by
  simp only [step, h, Channel.beginPut, if_true] at hstep
  split at hstep
  · cases hstep
    rfl
  · simp at hstep

/-- A take that begins when all is cancelled fails, unless the closing mark was taken before. -/
theorem Balanced.ask_of_cancelled (hb : Balanced e log) (h : e.cancelled = true)
    (hstep : e.step .ask = some (e', new)) :
    new = [.asked, .received (if ended log then .ok .endOfStream else .error .cancelled)] := by
  rw [hb.ended_eq]
  simp only [Exchange.step] at hstep
  split at hstep
  · rcases e.line.channel.beginTake_cases e.cancelled with
      ⟨hf, htake⟩ | ⟨hf, -, htake⟩ | ⟨-, hlive, -⟩
    · rw [htake] at hstep
      cases hstep
      rw [hf, if_pos rfl]
    · rw [htake] at hstep
      cases hstep
      rw [hf, if_neg Bool.false_ne_true]
    · rw [h] at hlive
      simp at hlive
  · simp at hstep

/-- A put that fails leaves the slot as it was. -/
theorem Balanced.slot_of_failed_put (h : Balanced e log) {item : Item} {err : ChannelError}
    (hstep : e.step α = some (e', new)) (hfailed : .sent item (.error err) ∈ new) :
    e'.line.channel.slot = e.line.channel.slot := by
  cases step_effect h.waits hstep with
  | quiet hslot hfinished hgone hwaits haccepted hreceived => exact hslot
  | accept hsink hslot hslot' hfinished hsource hclosing hnew =>
      subst hnew
      simp at hfailed
  | take hsource hslot hslot' hfinished hsource' hsink hnew =>
      subst hnew
      simp at hfailed
  | again hfinished hsame hnew =>
      subst hsame
      rfl

/-- Who receives the closing mark has received all there was, and it was really put. -/
theorem Balanced.closing (h : Balanced e log) (hstep : e.step α = some (e', new))
    (hmark : .received (.ok .endOfStream) ∈ new) :
    .endOfStream ∈ accepted log ∧ receivedRows log = acceptedRows log ∧
      e'.line.channel.finished = true := by
  cases step_effect h.waits hstep with
  | quiet hslot hfinished hgone hwaits haccepted hreceived =>
      obtain ⟨-, err, herr⟩ := hreceived _ hmark
      simp at herr
  | accept hsink hslot hslot' hfinished hsource hclosing hnew =>
      subst hnew
      simp at hmark
  | take hsource hslot hslot' hfinished hsource' hsink hnew =>
      subst hnew
      obtain rfl : Item.endOfStream = _ := by simpa using hmark
      refine ⟨?_, ?_, hfinished⟩
      · rw [h.accepted_eq, hslot]
        simp
      · rw [h.rows_eq, Channel.held, hslot, List.append_nil]
  | again hf hsame hnew =>
      subst hsame
      refine ⟨?_, ?_, hf⟩
      · rw [h.accepted_eq, taken, h.ended_eq, hf]
        simp
      · rw [h.rows_eq, Channel.held_of_empty (h.spent hf), List.append_nil]

/-- **A channel delivers in order, and neither loses nor doubles anything.**  However puts, takes,
drops and cancellations are interleaved: the received rows are the first of the accepted ones; at
most one item is on its way; a put that failed put nothing, so its row is not received; the closing
mark comes after all rows, only if it was put, and from then on nothing else comes; and what begins
after a cancellation fails, but for a receive behind the closing mark. -/
theorem delivers_in_order {acts : List Act} (hrun : Exchange.new.run acts = some (e, log)) :
    receivedRows log <+: acceptedRows log ∧
    ((accepted log).length = (taken log).length ∨
      (accepted log).length = (taken log).length + 1) ∧
    (∀ r, .received (.ok (.row r)) ∈ log → .sent (.row r) (.ok ()) ∈ log) ∧
    (∀ (α : Act) (e' : Exchange) (new : List Entry) (item : Item) (err : ChannelError),
      e.step α = some (e', new) → .sent item (.error err) ∈ new →
        e'.line.channel.slot = e.line.channel.slot) ∧
    (∀ (α : Act) (e' : Exchange) (new : List Entry),
      e.step α = some (e', new) → .received (.ok .endOfStream) ∈ new →
        .sent .endOfStream (.ok ()) ∈ log ∧ receivedRows log = acceptedRows log ∧ e'.Over) ∧
    (.cancelled ∈ log →
      (∀ (item : Item) (e' : Exchange) (new : List Entry), e.step (.offer item) = some (e', new) →
        new = [.offered item, .sent item (.error .cancelled)]) ∧
      (∀ (e' : Exchange) (new : List Entry), e.step .ask = some (e', new) →
        new = [.asked, .received
          (if ended log then .ok .endOfStream else .error .cancelled)])) := by
  have hb := balanced_of_run hrun
  have hfirst : receivedRows log <+: acceptedRows log := ⟨_, hb.rows_eq.symm⟩
  refine ⟨hfirst, ?_, ?_, ?_, ?_, fun hc => ⟨?_, ?_⟩⟩
  · rw [hb.accepted_eq, List.length_append]
    cases e.line.channel.slot with
    | none => exact .inl rfl
    | some item => exact .inr rfl
  · intro r hr
    exact mem_accepted (mem_rowsOf (hfirst.subset (mem_receivedRows hr)))
  · intro α e' new item err hstep hfailed
    exact hb.slot_of_failed_put hstep hfailed
  · intro α e' new hstep hmark
    obtain ⟨hput, hrows, hf⟩ := hb.closing hstep hmark
    exact ⟨mem_accepted hput, hrows, (hb.step hstep).is_over hf⟩
  · intro item e' new hstep
    exact offer_of_cancelled (cancelled_of_run hrun hc) hstep
  · intro e' new hstep
    exact hb.ask_of_cancelled (cancelled_of_run hrun hc) hstep

/-- Two rows and the closing mark go through a channel, which is cancelled before the consumer asks
once more. -/
theorem delivers_in_order_two_rows :
    ∃ e log, Exchange.new.run [.offer (.row []), .put, .ask, .take, .ask, .offer (.row []), .put,
        .take, .offer .endOfStream, .put, .ask, .take, .cancel, .ask] = some (e, log) ∧
      receivedRows log = [[], []] ∧ receivedRows log <+: acceptedRows log := by
  refine ⟨_, _, rfl, rfl, ?_⟩
  have hrun : Exchange.new.run [.offer (.row []), .put, .ask, .take, .ask, .offer (.row []), .put,
      .take, .offer .endOfStream, .put, .ask, .take, .cancel, .ask] = some (_, _) := rfl
  exact (delivers_in_order hrun).1

end Exchange

end StreamQuery
