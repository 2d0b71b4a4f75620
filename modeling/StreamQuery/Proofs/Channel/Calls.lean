/-
The channels of a session are exchanges.

What a session does with one of its channels is one or two acts of an exchange: a call
that is answered at once begins and ends, one that is not only begins, and it is released
by its second act.  A consumer half that still lies in a registry is, for the exchange,
ready for whoever gets it.

So every channel of every session has come about by a run of an exchange, and what is
preserved by the acts of an exchange holds of it.
-/
import StreamQuery.Proofs.Channel.Exchange
import StreamQuery.Proofs.Lookup

namespace StreamQuery

namespace Session

open Exchange (Act Entry)

variable {s s' : Session} {name : String} {l l' : Line} {item : Item} {log : List Entry}

/-- A line whose consumer half is handed out. -/
def Line.handed (l : Line) : Line :=
  { l with source := if l.source = .registered then .ready else l.source }

/-- The exchange of a channel of a session. -/
def exchange (s : Session) (l : Line) : Exchange :=
  ⟨s.cancelled, l.handed⟩

theorem Line.handed_of_ne (h : l.source ≠ .registered) : l.handed = l := by
  unfold handed
  rw [if_neg h]

theorem Line.handed_afterPut (l : Line) (c : Channel) (item : Item) :
    (l.afterPut c item).handed = l.handed.afterPut c item := by
  unfold afterPut
  split
  · rfl
  · rfl

/-- What a put leaves in the log. -/
def Answer.putEntries (item : Item) : Answer Unit → List Entry
  | .done result => [.offered item, .sent item result]
  | .blocked => [.offered item]

/-- What a receive leaves in the log. -/
def Answer.takeEntries : Answer Item → List Entry
  | .done result => [.asked, .received result]
  | .blocked => [.asked]

/-- What a released call leaves in the log. -/
def Released.Leaves (r : Released) (log : List Entry) : Prop :=
  match r with
  | .sent result => ∃ item, log = [.sent item result]
  | .received result => log = [.received result]

/-! ### Calls -/

theorem sinkOf_cases (h : s.sinkOf name = .ok l) : s.line? name = some l ∧ l.sink = .ready := by
  unfold sinkOf at h
  split at h
  · simp at h
  · rename_i hline
    split at h
    · rename_i hready
      cases h
      exact ⟨hline, hready⟩
    · simp at h

theorem sourceOf_cases (h : s.sourceOf name = .ok l) :
    s.line? name = some l ∧ l.source = .ready := by
  unfold sourceOf at h
  split at h
  · simp at h
  · rename_i hline
    split at h
    · rename_i hready
      cases h
      exact ⟨hline, hready⟩
    · simp at h

/-- A put is a run of the exchange of its channel, and touches no other channel. -/
theorem put_run {answer : Answer Unit} (h : s.put name item = .ok (answer, s')) :
    ∃ l acts l', s.line? name = some l ∧ s' = s.update name l' ∧
      (s.exchange l).run acts = some (s.exchange l', answer.putEntries item) := by
  unfold put at h
  cases hl : s.sinkOf name with
  | error refusal =>
      rw [hl] at h
      simp [bind, Except.bind] at h
  | ok l =>
      obtain ⟨hline, hready⟩ := sinkOf_cases hl
      have hsink : l.handed.sink = .ready := hready
      rw [hl] at h
      cases hbegin : Channel.beginPut s.cancelled with
      | some err =>
          simp only [hbegin, bind, Except.bind, pure, Except.pure] at h
          cases h
          refine ⟨l, [.offer item], _, hline, rfl, ?_⟩
          simp only [Exchange.run, Exchange.step, exchange, hsink, hbegin, Option.map_some,
            List.append_nil, Answer.putEntries, Line.handed_afterPut]
          rfl
      | none =>
          simp only [hbegin, bind, Except.bind, pure, Except.pure] at h
          cases hput : l.channel.put? item with
          | none =>
              rw [hput] at h
              cases h
              refine ⟨l, [.offer item], _, hline, rfl, ?_⟩
              simp only [Exchange.run, Exchange.step, exchange, hsink, hbegin, Option.map_some,
                List.append_nil, Answer.putEntries]
              rfl
          | some out =>
              obtain ⟨result, c⟩ := out
              have hput' : l.handed.channel.put? item = some (result, c) := hput
              rw [hput] at h
              cases h
              refine ⟨l, [.offer item, .put], _, hline, rfl, ?_⟩
              simp only [Exchange.run, Exchange.step, exchange, hsink, hbegin, hput',
                Option.map_some, List.append_nil, Answer.putEntries, Line.handed_afterPut]
              rfl

/-- A receive is a run of the exchange of its channel. -/
theorem receive_run {answer : Answer Item} (h : s.receive name = .ok (answer, s')) :
    ∃ l acts l', s.line? name = some l ∧ (s' = s ∧ l' = l ∨ s' = s.update name l') ∧
      (s.exchange l).run acts = some (s.exchange l', answer.takeEntries) := by
  unfold receive at h
  cases hl : s.sourceOf name with
  | error refusal =>
      rw [hl] at h
      simp [bind, Except.bind] at h
  | ok l =>
      obtain ⟨hline, hready⟩ := sourceOf_cases hl
      have hsame : l.handed = l := Line.handed_of_ne (by rw [hready]; simp)
      rw [hl] at h
      cases hbegin : l.channel.beginTake s.cancelled with
      | some result =>
          simp only [hbegin, bind, Except.bind, pure, Except.pure] at h
          cases h
          refine ⟨l, [.ask], l, hline, .inl ⟨rfl, rfl⟩, ?_⟩
          simp only [Exchange.run, Exchange.step, exchange, hsame, hready, hbegin,
            Option.map_some, List.append_nil, Answer.takeEntries]
      | none =>
          simp only [hbegin, bind, Except.bind, pure, Except.pure] at h
          cases htake : l.channel.take? with
          | none =>
              rw [htake] at h
              cases h
              refine ⟨l, [.ask], _, hline, .inr rfl, ?_⟩
              simp only [Exchange.run, Exchange.step, exchange, hsame, hready, hbegin,
                Option.map_some, List.append_nil, Answer.takeEntries]
              rfl
          | some out =>
              obtain ⟨result, c⟩ := out
              rw [htake] at h
              cases h
              refine ⟨l, [.ask, .take], _, hline, .inr rfl, ?_⟩
              simp only [Exchange.run, Exchange.step, exchange, hsame, hready, hbegin, htake,
                Option.map_some, List.append_nil, Answer.takeEntries]
              rfl

/-- A put is released if there is room for its item, or if the query is cancelled. -/
theorem release_put {cancelled : Bool} {r : Released}
    (h : (match l.channel.put? item with
      | some (result, c) => some (Released.sent result, l.afterPut c item)
      | none =>
        if cancelled then some (.sent (.error .cancelled), l.afterPut l.channel item)
        else none) = some (r, l')) :
    (∃ result c, l.channel.put? item = some (result, c) ∧
      r = .sent result ∧ l' = l.afterPut c item) ∨
    (cancelled = true ∧ r = .sent (.error .cancelled) ∧ l' = l.afterPut l.channel item) := by
  split at h
  · rename_i result c hput
    cases h
    exact .inl ⟨result, c, hput, rfl, rfl⟩
  · split at h
    · rename_i hcancelled
      cases h
      exact .inr ⟨hcancelled, rfl, rfl⟩
    · simp at h

/-- A call is released if its way is open, or if the query is cancelled. -/
theorem release?_cases {cancelled : Bool} {r : Released}
    (h : l.release? cancelled = some (r, l')) :
    (∃ item, l.sink = .blocked item ∧
      ((∃ result c, l.channel.put? item = some (result, c) ∧
        r = .sent result ∧ l' = l.afterPut c item) ∨
      (cancelled = true ∧ r = .sent (.error .cancelled) ∧ l' = l.afterPut l.channel item))) ∨
    (l.source = .blocked ∧
      ((∃ result c, l.channel.take? = some (result, c) ∧
        r = .received result ∧ l' = { l with channel := c, source := .ready }) ∨
      (cancelled = true ∧ r = .received (.error .cancelled) ∧
        l' = { l with source := .ready }))) := by
  simp only [Line.release?] at h
  split at h
  · rename_i hreleased
    cases h
    split at hreleased
    · rename_i item hsink
      exact .inl ⟨item, hsink, release_put hreleased⟩
    · simp at hreleased
  · rename_i hsource
    refine .inr ⟨hsource, ?_⟩
    split at h
    · rename_i result c htake
      cases h
      exact .inl ⟨result, c, htake, rfl, rfl⟩
    · split at h
      · rename_i hcancelled
        cases h
        exact .inr ⟨hcancelled, rfl, rfl⟩
      · simp at h
  · simp at h

/-- What releases a call is an act of its exchange. -/
theorem release_step {r : Released} (h : l.release? s.cancelled = some (r, l')) :
    ∃ α log, (s.exchange l).step α = some (s.exchange l', log) ∧ r.Leaves log := by
  obtain ⟨item, hsink, hput⟩ | ⟨hsource, htake⟩ := release?_cases h
  · have hblocked : l.handed.sink = .blocked item := hsink
    obtain ⟨result, c, hput, rfl, rfl⟩ | ⟨hcancelled, rfl, rfl⟩ := hput
    · have hput' : l.handed.channel.put? item = some (result, c) := hput
      refine ⟨.put, [.sent item result], ?_, item, rfl⟩
      simp only [Exchange.step, exchange, hblocked, hput', Line.handed_afterPut]
    · refine ⟨.giveUpPut, [.sent item (.error .cancelled)], ?_, item, rfl⟩
      simp only [Exchange.step, exchange, hblocked, hcancelled, if_true, Line.handed_afterPut]
      rfl
  · have hsame : l.handed = l := Line.handed_of_ne (by rw [hsource]; simp)
    obtain ⟨result, c, htake, rfl, rfl⟩ | ⟨hcancelled, rfl, rfl⟩ := htake
    · refine ⟨.take, [.received result], ?_, rfl⟩
      simp only [Exchange.step, exchange, hsame, hsource, htake]
      rfl
    · refine ⟨.giveUpTake, [.received (.error .cancelled)], ?_, rfl⟩
      simp only [Exchange.step, exchange, hsame, hsource, hcancelled, if_true]
      rfl

/-! ### All channels of a session -/

/-- Every channel has come about by a run of an exchange. -/
def Traced (s : Session) : Prop :=
  ∀ entry ∈ s.lines, ∃ acts log, Exchange.new.run acts = some (s.exchange entry.2, log)

/-- What can be done with a session.  A consumer half that is handed out or dropped by the registry
was registered. -/
inductive Use (s : Session) : Session → Prop where
  | add {name : String} {source : SourceState} {s' : Session}
      (hsource : source = .ready ∨ source = .registered) (h : s.add name source = .ok s') :
      Use s s'
  | send {name : String} {item : Item} {answer : Except SendDefect (Answer Unit)} {s' : Session}
      (h : s.send name item = .ok (answer, s')) : Use s s'
  | close {name : String} {answer : Answer Unit} {s' : Session}
      (h : s.close name = .ok (answer, s')) : Use s s'
  | receive {name : String} {answer : Answer Item} {s' : Session}
      (h : s.receive name = .ok (answer, s')) : Use s s'
  | dropSink {name : String} {s' : Session} (h : s.dropSink name = .ok s') : Use s s'
  | dropSource {name : String} {s' : Session} (h : s.dropSource name = .ok s') : Use s s'
  | handOut {name : String} {l : Line} (hline : s.line? name = some l)
      (hsource : l.source = .registered) : Use s (s.handOut name)
  | orphan {name : String} {l : Line} (hline : s.line? name = some l)
      (hsource : l.source = .registered) : Use s (s.orphan name)
  | cancel : Use s s.cancel
  | release : Use s s.release.2

/-- The sessions that there can be. -/
inductive Reachable : Session → Prop where
  | empty : Reachable empty
  | use {s s' : Session} (hbefore : Reachable s) (huse : Use s s') : Reachable s'

theorem mem_of_line? (h : s.line? name = some l) : (name, l) ∈ s.lines :=
  Lookup.mem h

/-- A channel goes on by a run of its exchange. -/
theorem Traced.update (h : s.Traced) (hline : s.line? name = some l) {acts : List Act}
    (hrun : (s.exchange l).run acts = some (s.exchange l', log)) :
    (s.update name l').Traced := by
  intro entry hmem
  obtain ⟨old, hold, rfl⟩ := List.mem_map.mp hmem
  by_cases hname : old.1 = name
  · rw [if_pos hname]
    obtain ⟨acts', log', hbefore⟩ := h _ (mem_of_line? hline)
    exact ⟨_, _, Exchange.run_append hbefore hrun⟩
  · rw [if_neg hname]
    exact h old hold

theorem Traced.put (h : s.Traced) {answer : Answer Unit}
    (hput : s.put name item = .ok (answer, s')) : s'.Traced := by
  obtain ⟨l, acts, l', hline, rfl, hrun⟩ := put_run hput
  exact h.update hline hrun

theorem Traced.send (h : s.Traced) {answer : Except SendDefect (Answer Unit)}
    (hsend : s.send name item = .ok (answer, s')) : s'.Traced := by
  unfold Session.send at hsend
  cases hl : s.sinkOf name with
  | error refusal =>
      rw [hl] at hsend
      simp [bind, Except.bind] at hsend
  | ok l =>
      rw [hl] at hsend
      cases item with
      | endOfStream =>
          cases hsend
          exact h
      | row r =>
          cases hput : s.put name (.row r) with
          | error refusal =>
              simp [hput, bind, Except.bind] at hsend
          | ok out =>
              simp only [hput, bind, Except.bind, pure, Except.pure] at hsend
              cases hsend
              exact h.put hput

theorem Traced.receive (h : s.Traced) {answer : Answer Item}
    (hreceive : s.receive name = .ok (answer, s')) : s'.Traced := by
  obtain ⟨l, acts, l', hline, hs', hrun⟩ := receive_run hreceive
  rcases hs' with ⟨rfl, rfl⟩ | rfl
  · exact h
  · exact h.update hline hrun

theorem Traced.add (h : s.Traced) {source : SourceState}
    (hsource : source = .ready ∨ source = .registered) (hadd : s.add name source = .ok s') :
    s'.Traced := by
  unfold Session.add at hadd
  split at hadd
  · simp at hadd
  · cases hadd
    intro entry hmem
    rcases List.mem_append.mp (List.mem_mergeSort.mp hmem) with hold | hnew
    · exact h entry hold
    · obtain rfl := List.mem_singleton.mp hnew
      have hhanded : Line.handed ⟨.new, .ready, source⟩ = ⟨.new, .ready, .ready⟩ := by
        rcases hsource with rfl | rfl
        · rfl
        · rfl
      -- in a session that is cancelled the exchange begins by being cancelled
      cases hcancelled : s.cancelled with
      | false =>
          refine ⟨[], [], ?_⟩
          simp only [exchange, hhanded]
          rfl
      | true =>
          refine ⟨[.cancel], [.cancelled], ?_⟩
          simp only [exchange, hhanded]
          rfl

theorem Traced.dropSink (h : s.Traced) (hdrop : s.dropSink name = .ok s') : s'.Traced := by
  unfold Session.dropSink at hdrop
  cases hl : s.sinkOf name with
  | error refusal =>
      rw [hl] at hdrop
      simp [Except.map] at hdrop
  | ok l =>
      obtain ⟨hline, hready⟩ := sinkOf_cases hl
      have hsink : l.handed.sink = .ready := hready
      rw [hl] at hdrop
      cases hdrop
      have hrun : (s.exchange l).run [.dropSink] = some (s.exchange
          { l with channel := l.channel.dropProducer, sink := .gone }, []) := by
        simp only [Exchange.run, Exchange.step, exchange, hsink, Option.map_some, List.append_nil]
        rfl
      exact h.update hline hrun

/-- A consumer half that nobody waits at can be dropped. -/
theorem Traced.source_dropped (h : s.Traced) (hline : s.line? name = some l)
    (hready : l.handed.source = .ready) :
    (s.update name { l with channel := l.channel.dropConsumer, source := .gone }).Traced := by
  have hrun : (s.exchange l).run [.dropSource] = some (s.exchange
      { l with channel := l.channel.dropConsumer, source := .gone }, []) := by
    simp only [Exchange.run, Exchange.step, exchange, hready, Option.map_some, List.append_nil]
    rfl
  exact h.update hline hrun

theorem Traced.dropSource (h : s.Traced) (hdrop : s.dropSource name = .ok s') : s'.Traced := by
  unfold Session.dropSource at hdrop
  cases hl : s.sourceOf name with
  | error refusal =>
      rw [hl] at hdrop
      simp [Except.map] at hdrop
  | ok l =>
      obtain ⟨hline, hready⟩ := sourceOf_cases hl
      rw [hl] at hdrop
      cases hdrop
      refine h.source_dropped hline ?_
      rw [Line.handed_of_ne (by rw [hready]; simp), hready]

theorem Traced.orphan (h : s.Traced) (hline : s.line? name = some l)
    (hsource : l.source = .registered) : (s.orphan name).Traced := by
  unfold Session.orphan
  rw [hline]
  refine h.source_dropped hline ?_
  unfold Line.handed
  rw [if_pos hsource]

/-- For the exchange nothing happens when a consumer half is handed out. -/
theorem Traced.handOut (h : s.Traced) (hline : s.line? name = some l)
    (hsource : l.source = .registered) : (s.handOut name).Traced := by
  unfold Session.handOut
  rw [hline]
  have hsame : ({ l with source := .ready } : Line).handed = l.handed := by
    unfold Line.handed
    rw [if_pos hsource]
    rfl
  have hrun : (s.exchange l).run [] = some (s.exchange { l with source := .ready }, []) := by
    unfold exchange
    rw [hsame]
    rfl
  exact h.update hline hrun

theorem Traced.cancel (h : s.Traced) : s.cancel.Traced := by
  intro entry hmem
  obtain ⟨acts, log, hrun⟩ := h entry hmem
  have hcancel : (s.exchange entry.2).run [.cancel]
      = some (s.cancel.exchange entry.2, [.cancelled]) := rfl
  exact ⟨_, _, Exchange.run_append hrun hcancel⟩

/-! ### Releasing -/

theorem releasePass_cases {cancelled : Bool} {lines : List (String × Line)}
    {entry : String × Line} (h : entry ∈ (releasePass cancelled lines).2) :
    entry ∈ lines ∨ ∃ l r, (entry.1, l) ∈ lines ∧ l.release? cancelled = some (r, entry.2) := by
  induction lines with
  | nil => exact .inl h
  | cons first rest ih =>
      obtain ⟨name, l⟩ := first
      simp only [releasePass] at h
      have hrest : entry ∈ (releasePass cancelled rest).2 →
          entry ∈ (name, l) :: rest ∨ ∃ l₁ r, (entry.1, l₁) ∈ (name, l) :: rest ∧
            l₁.release? cancelled = some (r, entry.2) := by
        intro hmem
        rcases ih hmem with hmem | ⟨l₁, r, hmem, hr⟩
        · exact .inl (List.mem_cons_of_mem _ hmem)
        · exact .inr ⟨l₁, r, List.mem_cons_of_mem _ hmem, hr⟩
      split at h
      · rename_i r l' hr
        rcases List.mem_cons.mp h with rfl | hmem
        · exact .inr ⟨l, r, List.mem_cons_self, hr⟩
        · exact hrest hmem
      · rcases List.mem_cons.mp h with rfl | hmem
        · exact .inl List.mem_cons_self
        · exact hrest hmem

theorem Traced.releasePass (h : s.Traced) :
    ({ s with lines := (releasePass s.cancelled s.lines).2 } : Session).Traced := by
  intro entry hmem
  rcases releasePass_cases hmem with hold | ⟨l, r, hold, hr⟩
  · exact h entry hold
  · obtain ⟨acts, log, hbefore⟩ := h _ hold
    obtain ⟨α, log', hstep, -⟩ := release_step hr
    have hrun : (s.exchange l).run [α] = some (s.exchange entry.2, log') := by
      simp only [Exchange.run, hstep, Option.map_some, List.append_nil]
    exact ⟨_, _, Exchange.run_append hbefore hrun⟩

theorem Traced.releaseUpTo (h : s.Traced) (n : Nat) : (s.releaseUpTo n).2.Traced := by
  induction n generalizing s with
  | zero => exact h
  | succ n ih =>
      unfold Session.releaseUpTo
      by_cases hempty : (Session.releasePass s.cancelled s.lines).1.isEmpty = true
      · simp only [hempty, if_true]
        exact h
      · simp only [hempty]
        exact ih h.releasePass

/-! ### All sessions -/

theorem Use.traced (huse : Use s s') (h : s.Traced) : s'.Traced := by
  cases huse with
  | add hsource hadd => exact h.add hsource hadd
  | send hsend => exact h.send hsend
  | close hclose => exact h.put hclose
  | receive hreceive => exact h.receive hreceive
  | dropSink hdrop => exact h.dropSink hdrop
  | dropSource hdrop => exact h.dropSource hdrop
  | handOut hline hsource => exact h.handOut hline hsource
  | orphan hline hsource => exact h.orphan hline hsource
  | cancel => exact h.cancel
  | release => exact h.releaseUpTo _

/-- **Every channel of every session is the work of an exchange.** -/
theorem Reachable.traced (h : Reachable s) : s.Traced := by
  induction h with
  | empty =>
      intro entry hmem
      simp [Session.empty] at hmem
  | use hbefore huse ih => exact huse.traced ih

/-- What was accepted by a channel of a session is what was received from it and what is in its
slot. -/
theorem Reachable.balanced (h : Reachable s) (hline : s.line? name = some l) :
    ∃ log, (s.exchange l).Balanced log := by
  obtain ⟨acts, log, hrun⟩ := h.traced _ (mem_of_line? hline)
  exact ⟨log, Exchange.balanced_of_run hrun⟩

end Session

end StreamQuery
