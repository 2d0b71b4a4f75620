/-
What the users of channels can do to a half that they do not hold.

A consumer half that lies in a registry is in nobody's hands, so no call can use it up or drop it:
it stays where it is until the registry hands it out.  And no call brings a consumer half back that
is gone.  Both are told of one line after the other, whatever else happens in the session.

Lines are looked at here as members of the session, not looked up by name, so that nothing depends
on the order in which they are kept.
-/
import StreamQuery.Proofs.Channel.Calls

namespace StreamQuery.Session

variable {s s' s'' : Session} {name : String} {l l' l'' : Line} {item : Item}
  {source : SourceState}

/-- The names of the channels. -/
def names (s : Session) : List String :=
  s.lines.map Prod.fst

/-- The consumer half lies in a registry. -/
def Line.Waits (l : Line) : Prop :=
  l.source = .registered ∧ l.channel.consumer = true

/-- The consumer half is gone. -/
def Line.Lost (l : Line) : Prop :=
  l.channel.consumer = false

/-- A consumer half that waits goes on waiting, and one that is gone stays away. -/
structure Line.Goes (l l' : Line) : Prop where
  waits : l.Waits → l'.Waits
  lost : l.Lost → l'.Lost

/-- No channel disappears, and each goes on from what it was. -/
structure Comes (s s' : Session) : Prop where
  names : s.names ⊆ s'.names
  lines : ∀ entry ∈ s'.lines, entry.1 ∈ s.names → ∃ l, (entry.1, l) ∈ s.lines ∧ l.Goes entry.2

/-! ### Lines -/

theorem Line.Goes.refl (l : Line) : l.Goes l :=
  ⟨id, id⟩

theorem Line.Goes.trans (h : l.Goes l') (h' : l'.Goes l'') : l.Goes l'' :=
  ⟨h'.waits ∘ h.waits, h'.lost ∘ h.lost⟩

/-- What is done with the producer half is nothing to the consumer half. -/
theorem Line.Goes.of_same (hsource : l'.source = l.source)
    (hconsumer : l'.channel.consumer = l.channel.consumer) : l.Goes l' where
  waits := fun h => ⟨hsource.trans h.1, hconsumer.trans h.2⟩
  lost := fun h => hconsumer.trans h

/-- A consumer half that is used does not lie in a registry. -/
theorem Line.Goes.of_held (hheld : l.source ≠ .registered) (hlost : l.Lost → l'.Lost) :
    l.Goes l' where
  waits := fun h => absurd h.1 hheld
  lost := hlost

theorem consumer_of_put? {c c' : Channel} {result : Except ChannelError Unit}
    (h : c.put? item = some (result, c')) : c'.consumer = c.consumer := by
  unfold Channel.put? at h
  split at h
  · split at h
    · cases h
    · cases h
      rfl
  · cases h
    rfl

theorem consumer_of_take? {c c' : Channel} {result : Except ChannelError Item}
    (h : c.take? = some (result, c')) : c'.consumer = c.consumer := by
  unfold Channel.take? at h
  split at h
  · cases h
    rfl
  · split at h
    · cases h
    · cases h
      rfl

theorem Line.goes_afterPut {c : Channel} (hconsumer : c.consumer = l.channel.consumer)
    (item : Item) : l.Goes (l.afterPut c item) := by
  unfold Line.afterPut
  split
  · exact .of_same rfl hconsumer
  · exact .of_same rfl hconsumer

theorem Line.goes_release {cancelled : Bool} {r : Released}
    (h : l.release? cancelled = some (r, l')) : l.Goes l' := by
  obtain ⟨item, -, hput⟩ | ⟨hsource, htake⟩ := release?_cases h
  · obtain ⟨result, c, hput, -, rfl⟩ | ⟨-, -, rfl⟩ := hput
    · exact goes_afterPut (consumer_of_put? hput) _
    · exact goes_afterPut rfl _
  · have hheld : l.source ≠ .registered := by
      rw [hsource]
      exact nofun
    obtain ⟨result, c, htake, -, rfl⟩ | ⟨-, -, rfl⟩ := htake
    · exact .of_held hheld fun hlost => (consumer_of_take? htake).trans hlost
    · exact .of_held hheld id

/-! ### Sessions -/

theorem Comes.refl (s : Session) : s.Comes s where
  names := List.Subset.refl _
  lines := fun entry hentry _ => ⟨entry.2, hentry, .refl _⟩

theorem Comes.trans (h : s.Comes s') (h' : s'.Comes s'') : s.Comes s'' where
  names := List.Subset.trans h.names h'.names
  lines := by
    intro entry hentry hname
    obtain ⟨l', hl', hgoes'⟩ := h'.lines entry hentry (h.names hname)
    obtain ⟨l, hl, hgoes⟩ := h.lines _ hl' hname
    exact ⟨l, hl, hgoes.trans hgoes'⟩

theorem names_update (s : Session) (name : String) (l : Line) :
    (s.update name l).names = s.names := by
  unfold names update
  rw [List.map_map]
  refine List.map_congr_left fun entry _ => ?_
  show (if entry.1 = name then (name, l) else entry).1 = entry.1
  by_cases hname : entry.1 = name
  · rw [if_pos hname, hname]
  · rw [if_neg hname]

theorem mem_update {entry : String × Line} (h : entry ∈ (s.update name l).lines) :
    entry = (name, l) ∨ entry.1 ≠ name ∧ entry ∈ s.lines := by
  obtain ⟨old, hold, rfl⟩ := List.mem_map.mp h
  by_cases hname : old.1 = name
  · rw [if_pos hname]
    exact .inl rfl
  · rw [if_neg hname]
    exact .inr ⟨hname, hold⟩

theorem Comes.update (hline : s.line? name = some l) (hgoes : l.Goes l') :
    s.Comes (s.update name l') where
  names := by
    rw [names_update]
    exact List.Subset.refl _
  lines := by
    intro entry hentry _
    rcases mem_update hentry with rfl | ⟨-, hold⟩
    · exact ⟨l, mem_of_line? hline, hgoes⟩
    · exact ⟨entry.2, hold, .refl _⟩

theorem line?_of_mem_names (h : name ∈ s.names) : ∃ l, s.line? name = some l :=
  Lookup.exists_of_mem_keys h

/-- A channel is added under a name that is new. -/
theorem add_cases (h : s.add name source = .ok s') :
    name ∉ s.names ∧ s'.cancelled = s.cancelled ∧
      ∀ entry, entry ∈ s'.lines ↔ entry = (name, ⟨.new, .ready, source⟩) ∨ entry ∈ s.lines := by
  unfold Session.add at h
  split at h
  · cases h
  · rename_i hnone
    cases h
    refine ⟨fun hmem => ?_, rfl, fun entry => ?_⟩
    · obtain ⟨l, hl⟩ := line?_of_mem_names hmem
      rw [hnone] at hl
      cases hl
    · simp only [List.mem_mergeSort, List.mem_append, List.mem_singleton]
      exact or_comm

theorem Comes.add (h : s.add name source = .ok s') : s.Comes s' := by
  obtain ⟨hnew, -, hlines⟩ := add_cases h
  refine ⟨fun other hother => ?_, fun entry hentry hold => ?_⟩
  · obtain ⟨entry, hentry, rfl⟩ := List.mem_map.mp hother
    exact List.mem_map_of_mem ((hlines entry).mpr (.inr hentry))
  · rcases (hlines entry).mp hentry with rfl | hentry
    · exact absurd hold hnew
    · exact ⟨entry.2, hentry, .refl _⟩

/-! ### Calls -/

theorem bind_eq_ok {ε α β : Type} {x : Except ε α} {f : α → Except ε β} {b : β}
    (h : x >>= f = .ok b) : ∃ a, x = .ok a ∧ f a = .ok b := by
  cases x with
  | error e => cases h
  | ok a => exact ⟨a, rfl, h⟩

theorem map_eq_ok {ε α β : Type} {x : Except ε α} {f : α → β} {b : β}
    (h : x.map f = .ok b) : ∃ a, x = .ok a ∧ f a = b := by
  cases x with
  | error e => cases h
  | ok a => exact ⟨a, rfl, Except.ok.inj h⟩

/-- A row that is sent is put; the closing mark is not sent like a row. -/
theorem send_cases {answer : Except SendDefect (Answer Unit)}
    (h : s.send name item = .ok (answer, s')) :
    item = .endOfStream ∧ s' = s ∨
      ∃ put, answer = .ok put ∧ s.put name item = .ok (put, s') := by
  unfold Session.send at h
  obtain ⟨l, -, h⟩ := bind_eq_ok h
  cases item with
  | endOfStream =>
      cases h
      exact .inl ⟨rfl, rfl⟩
  | row r =>
      obtain ⟨out, hput, h⟩ := bind_eq_ok h
      cases h
      exact .inr ⟨_, rfl, hput⟩

theorem Comes.put {answer : Answer Unit} (h : s.put name item = .ok (answer, s')) :
    s.Comes s' := by
  unfold Session.put at h
  obtain ⟨l, hl, h⟩ := bind_eq_ok h
  obtain ⟨hline, -⟩ := sinkOf_cases hl
  split at h
  · cases h
    exact .update hline (Line.goes_afterPut rfl _)
  · split at h
    · rename_i hput
      cases h
      exact .update hline (Line.goes_afterPut (consumer_of_put? hput) _)
    · cases h
      exact .update hline (.of_same rfl rfl)

theorem Comes.send {answer : Except SendDefect (Answer Unit)}
    (h : s.send name item = .ok (answer, s')) : s.Comes s' := by
  obtain ⟨-, rfl⟩ | ⟨put, -, hput⟩ := send_cases h
  · exact .refl s'
  · exact .put hput

theorem Comes.receive {answer : Answer Item} (h : s.receive name = .ok (answer, s')) :
    s.Comes s' := by
  unfold Session.receive at h
  obtain ⟨l, hl, h⟩ := bind_eq_ok h
  obtain ⟨hline, hready⟩ := sourceOf_cases hl
  have hheld : l.source ≠ .registered := by
    rw [hready]
    exact nofun
  split at h
  · cases h
    exact .refl s
  · split at h
    · rename_i htake
      cases h
      exact .update hline (.of_held hheld fun hlost => (consumer_of_take? htake).trans hlost)
    · cases h
      exact .update hline (.of_held hheld id)

theorem Comes.dropSink (h : s.dropSink name = .ok s') : s.Comes s' := by
  obtain ⟨l, hl, rfl⟩ := map_eq_ok h
  exact .update (sinkOf_cases hl).1 (.of_same rfl rfl)

theorem Comes.dropSource (h : s.dropSource name = .ok s') : s.Comes s' := by
  obtain ⟨l, hl, rfl⟩ := map_eq_ok h
  obtain ⟨hline, hready⟩ := sourceOf_cases hl
  have hheld : l.source ≠ .registered := by
    rw [hready]
    exact nofun
  exact .update hline (.of_held hheld fun _ => rfl)

theorem names_releasePass (cancelled : Bool) (lines : List (String × Line)) :
    (Session.releasePass cancelled lines).2.map Prod.fst = lines.map Prod.fst := by
  induction lines with
  | nil => rfl
  | cons entry rest ih =>
      obtain ⟨name, l⟩ := entry
      simp only [Session.releasePass]
      split
      · exact congrArg (name :: ·) ih
      · exact congrArg (name :: ·) ih

theorem Comes.releaseUpTo (s : Session) (n : Nat) : s.Comes (s.releaseUpTo n).2 := by
  induction n generalizing s with
  | zero => exact .refl s
  | succ n ih =>
      unfold Session.releaseUpTo
      by_cases hempty : (Session.releasePass s.cancelled s.lines).1.isEmpty = true
      · simp only [hempty, if_true]
        exact .refl s
      · simp only [hempty]
        refine .trans ⟨?_, fun entry hentry _ => ?_⟩ (ih _)
        · unfold Session.names
          rw [names_releasePass]
          exact List.Subset.refl _
        · rcases releasePass_cases hentry with hold | ⟨l, r, hold, hr⟩
          · exact ⟨entry.2, hold, .refl _⟩
          · exact ⟨l, hold, Line.goes_release hr⟩

/-- What can be done with a session by those who hold halves of its channels. -/
inductive Traffic (s : Session) : Session → Prop where
  | add {name : String} {s' : Session} (h : s.add name .ready = .ok s') : Traffic s s'
  | send {name : String} {item : Item} {answer : Except SendDefect (Answer Unit)} {s' : Session}
      (h : s.send name item = .ok (answer, s')) : Traffic s s'
  | close {name : String} {answer : Answer Unit} {s' : Session}
      (h : s.close name = .ok (answer, s')) : Traffic s s'
  | receive {name : String} {answer : Answer Item} {s' : Session}
      (h : s.receive name = .ok (answer, s')) : Traffic s s'
  | dropSink {name : String} {s' : Session} (h : s.dropSink name = .ok s') : Traffic s s'
  | dropSource {name : String} {s' : Session} (h : s.dropSource name = .ok s') : Traffic s s'
  | cancel : Traffic s s.cancel
  | release : Traffic s s.release.2

/-- **Whatever is done with the halves that are held**, consumer halves in a registry go on waiting
and those that are gone stay away. -/
theorem Traffic.comes (h : s.Traffic s') : s.Comes s' := by
  cases h with
  | add hadd => exact .add hadd
  | send hsend => exact .send hsend
  | close hclose => exact .put hclose
  | receive hreceive => exact .receive hreceive
  | dropSink hdrop => exact .dropSink hdrop
  | dropSource hdrop => exact .dropSource hdrop
  | cancel => exact ⟨List.Subset.refl _, fun entry hentry _ => ⟨entry.2, hentry, .refl _⟩⟩
  | release => exact .releaseUpTo s _

/-! ### A channel without a consumer -/

/-- Nothing can be put into a channel whose consumer half is gone: the call fails at once, whether
the slot is free or not. -/
theorem put_of_lost (hsink : s.sinkOf name = .ok l) (hlost : l.Lost) (item : Item) :
    s.put name item = .ok (.done (.error (if s.cancelled then .cancelled else .consumerClosed)),
      s.update name (l.afterPut l.channel item)) := by
  have hput : l.channel.put? item = some (.error .consumerClosed, l.channel) := by
    unfold Channel.put?
    rw [show l.channel.consumer = false from hlost]
    rfl
  unfold Session.put
  rw [hsink]
  by_cases hcancelled : s.cancelled = true
  · simp only [bind, Except.bind, Channel.beginPut, hcancelled, if_true]
    rfl
  · simp only [bind, Except.bind, Channel.beginPut, hcancelled, hput]
    rfl

theorem send_of_lost (hsink : s.sinkOf name = .ok l) (hlost : l.Lost) (row : Row) :
    ∃ s', s.send name (.row row)
      = .ok (.ok (.done (.error (if s.cancelled then .cancelled else .consumerClosed))), s') := by
  unfold Session.send
  rw [hsink]
  simp only [bind, Except.bind, put_of_lost hsink hlost]
  exact ⟨_, rfl⟩

end StreamQuery.Session
