/-
What a registry answers.

`Run` is any sequence of calls: channels are registered, consumer halves are asked for, and in
between whoever holds a half of a channel uses it.  The history of the calls says all there is to
know of the registry.  Of a node it has the channel that was registered last; of that channel it
still has the consumer half unless the history says that it was handed out; and of a channel that
was replaced in time it has nothing any more, and neither has anybody else.

`Records` is that, for one registry and its history.  Every call keeps it, and the answer to any
request is read off it.
-/
import Mathlib
import StreamQuery.Channel.Registry
import StreamQuery.Failure
import StreamQuery.Proofs.Channel.Traffic
import StreamQuery.Proofs.Query.Layout

namespace StreamQuery

namespace Wiring

variable {κ : Type} {w w' : Wiring κ} {node other : NodeId} {channel : κ} {d : WiringDefect}

/-- The nodes that have an output. -/
def nodes (w : Wiring κ) : List NodeId :=
  w.outputs.map Prod.fst

theorem mem_nodes_put (o : Output κ) :
    other ∈ (w.put node o).nodes ↔ other = node ∨ other ∈ w.nodes := by
  unfold nodes put
  simp only [List.map_cons, List.mem_cons, List.mem_map, List.mem_filter, bne_iff_ne]
  by_cases hsame : other = node
  · simp [hsame]
  · simp only [hsame, false_or]
    constructor
    · rintro ⟨e, ⟨he, -⟩, rfl⟩
      exact ⟨e, he, rfl⟩
    · rintro ⟨e, he, rfl⟩
      exact ⟨e, ⟨he, hsame⟩, rfl⟩

theorem nodup_nodes_put (h : w.nodes.Nodup) (o : Output κ) : (w.put node o).nodes.Nodup := by
  refine List.nodup_cons.mpr ⟨?_, h.sublist (List.filter_sublist.map _)⟩
  intro hmem
  obtain ⟨e, he, hsame⟩ := List.mem_map.mp hmem
  have hne := (List.mem_filter.mp he).2
  rw [bne_iff_ne] at hne
  exact hne hsame

/-- A consumer half is handed out if there is one that was not. -/
theorem takeOutput_eq (w : Wiring κ) (node : NodeId) : w.takeOutput node =
    match w.output? node with
    | none => .error (.unregistered node)
    | some ⟨_, true⟩ => .error (.taken node)
    | some ⟨channel, false⟩ => .ok (channel, w.put node ⟨channel, true⟩) := by
  unfold takeOutput
  cases w.output? node with
  | none => rfl
  | some o =>
      obtain ⟨channel, taken⟩ := o
      cases taken <;> rfl

end Wiring

namespace Session

variable {s : Session} {name : String} {entry : String × Line}

theorem names_orphan (s : Session) (name : String) : (s.orphan name).names = s.names := by
  unfold orphan
  cases s.line? name with
  | none => rfl
  | some l => exact s.names_update name _

theorem names_handOut (s : Session) (name : String) : (s.handOut name).names = s.names := by
  unfold handOut
  cases s.line? name with
  | none => rfl
  | some l => exact s.names_update name _

/-- A channel whose registration is lost loses its consumer half; the others stay as they are. -/
theorem mem_orphan (h : entry ∈ (s.orphan name).lines) :
    entry.1 = name ∧ entry.2.Lost ∨ entry.1 ≠ name ∧ entry ∈ s.lines := by
  unfold orphan at h
  cases hline : s.line? name with
  | none =>
      rw [hline] at h
      exact .inr ⟨Lookup.ne_of_eq_none hline h, h⟩
  | some l =>
      rw [hline] at h
      rcases mem_update h with rfl | hother
      · exact .inl ⟨rfl, rfl⟩
      · exact .inr hother

/-- A consumer half that is handed out is held; the other channels stay as they are. -/
theorem mem_handOut (h : entry ∈ (s.handOut name).lines) :
    entry.1 = name ∧ (∃ l, (name, l) ∈ s.lines ∧ entry.2 = { l with source := .ready }) ∨
      entry.1 ≠ name ∧ entry ∈ s.lines := by
  unfold handOut at h
  cases hline : s.line? name with
  | none =>
      rw [hline] at h
      exact .inr ⟨Lookup.ne_of_eq_none hline h, h⟩
  | some l =>
      rw [hline] at h
      rcases mem_update h with rfl | hother
      · exact .inl ⟨rfl, l, mem_of_line? hline, rfl⟩
      · exact .inr hother

end Session

namespace Registry

/-- A call of a registry with its answer, or something that is done with halves of channels. -/
inductive Event where
  | sink (node : NodeId) (channel : String)
  | take (q : Request) (answer : Except WiringDefect String)
  | traffic

/-- The channels that were made, each with the node it was made for, the last one first. -/
def made : List Event → List (NodeId × String)
  | [] => []
  | .sink node channel :: history => (node, channel) :: made history
  | _ :: history => made history

/-- The channel that was made last for a node. -/
def latest (history : List Event) (node : NodeId) : Option String :=
  (made history).lookup node

/-- The channels whose consumer halves were handed out, the last one first. -/
def handedOut : List Event → List String
  | [] => []
  | .take _ (.ok channel) :: history => channel :: handedOut history
  | _ :: history => handedOut history

/-- A channel was replaced by another one while its consumer half had not been handed out. -/
def Replaced : List Event → String → Prop
  | [], _ => False
  | .sink node _ :: history, channel =>
    latest history node = some channel ∧ channel ∉ handedOut history ∨ Replaced history channel
  | _ :: history, channel => Replaced history channel

/-- The node whose channel is asked for. -/
def Request.node? (p : Plan) : Request → Except WiringDefect NodeId
  | .source node ordinal =>
    match p.input? node ordinal with
    | some input => .ok input
    | none => .error (.noInput node ordinal)
  | .output node => .ok node

/-- The answer to a request after a history: the channel that was made last, once. -/
def answer (p : Plan) (history : List Event) (q : Request) : Except WiringDefect String :=
  match q.node? p with
  | .error d => .error d
  | .ok node =>
    match latest history node with
    | none => .error (.unregistered node)
    | some channel =>
      if channel ∈ handedOut history then .error (.taken node) else .ok channel

/-- One call, or something that is done with halves of channels. -/
inductive Step (p : Plan) (r : Registry) : Event → Registry → Prop where
  | sink {node : NodeId} {channel : String} {r' : Registry}
      (h : r.sink node channel = .ok r') : Step p r (.sink node channel) r'
  | take {q : Request} {result : Except WiringDefect String} {r' : Registry}
      (h : r.take p q = (result, r')) : Step p r (.take q result) r'
  | traffic {session : Session} (h : r.session.Traffic session) :
      Step p r .traffic { r with session }

/-- A registry with its history, the last event first. -/
inductive Run (p : Plan) : List Event → Registry → Prop where
  | empty : Run p [] .empty
  | step {history : List Event} {r r' : Registry} {event : Event} (hbefore : Run p history r)
      (hstep : Step p r event r') : Run p (event :: history) r'

/-- What a registry is after its history. -/
structure Records (history : List Event) (r : Registry) : Prop where
  /-- A node has the channel that was made last for it. -/
  outputs : ∀ node, r.wiring.output? node
    = (latest history node).map fun channel => ⟨channel, decide (channel ∈ handedOut history)⟩
  /-- No node is there twice. -/
  nodup : r.wiring.nodes.Nodup
  nodes : ∀ node, node ∈ r.wiring.nodes ↔ node ∈ (made history).map Prod.fst
  /-- No channel is made twice. -/
  channels : ((made history).map Prod.snd).Nodup
  once : (handedOut history).Nodup
  handed : ∀ channel ∈ handedOut history, channel ∈ (made history).map Prod.snd
  known : ∀ channel ∈ (made history).map Prod.snd, channel ∈ r.session.names
  /-- A consumer half that the registry has was not used by anybody. -/
  waits : ∀ node channel, latest history node = some channel → channel ∉ handedOut history →
    ∀ l, (channel, l) ∈ r.session.lines → l.Waits
  lost : ∀ channel, Replaced history channel → ∀ l, (channel, l) ∈ r.session.lines → l.Lost

variable {p : Plan} {history : List Event} {r r' : Registry} {node other : NodeId}
  {channel : String} {q : Request}

/-! ### Histories -/

theorem latest_sink (history : List Event) (node other : NodeId) (channel : String) :
    latest (.sink node channel :: history) other
      = if other = node then some channel else latest history other :=
  Lookup.cons node channel (made history) other

theorem mem_channels_of_latest (h : latest history node = some channel) :
    channel ∈ (made history).map Prod.snd :=
  List.mem_map_of_mem (Lookup.mem h)

/-- Different nodes have different channels. -/
theorem latest_inj (hnodup : ((made history).map Prod.snd).Nodup)
    (h : latest history node = some channel) (h' : latest history other = some channel) :
    node = other :=
  congrArg Prod.fst
    (List.inj_on_of_nodup_map hnodup (Lookup.mem h) (Lookup.mem h') rfl)

theorem mem_made_of_replaced (h : Replaced history channel) :
    channel ∈ (made history).map Prod.snd := by
  induction history with
  | nil => exact h.elim
  | cons event history ih =>
      cases event with
      | sink node other =>
          rcases h with ⟨hlatest, -⟩ | hbefore
          · exact List.mem_cons_of_mem _ (mem_channels_of_latest hlatest)
          · exact List.mem_cons_of_mem _ (ih hbefore)
      | take q result => exact ih h
      | traffic => exact ih h

/-- A channel that was replaced is no longer that of a node. -/
theorem latest_ne_of_replaced (hnodup : ((made history).map Prod.snd).Nodup)
    (h : Replaced history channel) (node : NodeId) : latest history node ≠ some channel := by
  induction history with
  | nil => exact h.elim
  | cons event history ih =>
      cases event with
      | sink last new =>
          obtain ⟨hnew, hnodup⟩ := List.nodup_cons.mp hnodup
          rw [latest_sink]
          have hold : channel ∈ (made history).map Prod.snd := by
            rcases h with ⟨hlatest, -⟩ | hbefore
            · exact mem_channels_of_latest hlatest
            · exact mem_made_of_replaced hbefore
          by_cases hsame : node = last
          · rw [if_pos hsame]
            intro heq
            cases heq
            exact hnew hold
          · rw [if_neg hsame]
            rcases h with ⟨hlatest, -⟩ | hbefore
            · exact fun hlatest' => hsame (latest_inj hnodup hlatest' hlatest)
            · exact ih hnodup hbefore
      | take q result => exact ih hnodup h
      | traffic => exact ih hnodup h

/-! ### Calls -/

theorem sink_cases (h : r.sink node channel = .ok r') :
    ∃ session, r.session.add channel .registered = .ok session ∧
      r'.wiring = (r.wiring.register node channel).2 ∧
      r'.session = match (r.wiring.register node channel).1 with
        | some old => session.orphan old
        | none => session := by
  obtain ⟨session, hadd, h⟩ := Session.bind_eq_ok h
  cases h
  exact ⟨session, hadd, rfl, rfl⟩

/-- A request is for the output of a node, or for an input that is not there. -/
theorem take_eq (r : Registry) (p : Plan) (q : Request) : r.take p q =
    match q.node? p with
    | .error d => (.error d, r)
    | .ok node =>
      match r.wiring.takeOutput node with
      | .error d => (.error d, r)
      | .ok (channel, wiring) =>
        (.ok channel, { wiring, session := r.session.handOut channel }) := by
  cases q with
  | output node => rfl
  | source node ordinal =>
      simp only [take, Request.node?, Wiring.takeInput]
      cases p.input? node ordinal with
      | none => rfl
      | some input => rfl

namespace Records

theorem register_fst (hr : Records history r) {old : String} :
    (r.wiring.register node channel).1 = some old ↔
      latest history node = some old ∧ old ∉ handedOut history := by
  unfold Wiring.register
  rw [hr.outputs node]
  cases latest history node with
  | none => simp
  | some last =>
      by_cases hlast : last ∈ handedOut history
      · simp only [Option.map_some, hlast, decide_true, if_true, Option.some.injEq]
        constructor
        · rintro ⟨⟩
        · rintro ⟨rfl, hnot⟩
          exact absurd hlast hnot
      · simp only [Option.map_some, hlast, decide_false, Option.some.injEq]
        constructor
        · rintro ⟨⟩
          exact ⟨rfl, hlast⟩
        · rintro ⟨rfl, -⟩
          rfl

/-- A request is answered as the history has it, and nothing changes if it cannot be met. -/
theorem take_cases (hr : Records history r) (p : Plan) (q : Request) :
    (∃ d, answer p history q = .error d ∧ r.take p q = (.error d, r)) ∨
      ∃ node channel, q.node? p = .ok node ∧ latest history node = some channel ∧
        channel ∉ handedOut history ∧ answer p history q = .ok channel ∧
        r.take p q = (.ok channel,
          ⟨r.wiring.put node ⟨channel, true⟩, r.session.handOut channel⟩) := by
  rw [take_eq]
  unfold answer
  cases hnode : q.node? p with
  | error d => exact .inl ⟨d, rfl, rfl⟩
  | ok node =>
      simp only [Wiring.takeOutput_eq, hr.outputs node]
      cases hlatest : latest history node with
      | none => exact .inl ⟨_, rfl, rfl⟩
      | some channel =>
          by_cases hout : channel ∈ handedOut history
          · simp only [Option.map_some, hout, decide_true, if_true]
            exact .inl ⟨_, rfl, rfl⟩
          · simp only [Option.map_some, hout, decide_false, if_false]
            exact .inr ⟨node, channel, rfl, hlatest, hout, rfl, rfl⟩

theorem empty : Records [] .empty where
  outputs := fun _ => rfl
  nodup := List.nodup_nil
  nodes := fun _ => Iff.rfl
  channels := List.nodup_nil
  once := List.nodup_nil
  handed := fun _ h => h
  known := fun _ h => absurd h List.not_mem_nil
  waits := fun _ _ h => absurd h nofun
  lost := fun _ h => h.elim

/-- What a registration leaves of the channels of the session: the one that was replaced in time has
lost its consumer half, and one was added. -/
theorem mem_sink (hr : Records history r) (h : r.sink node channel = .ok r') :
    channel ∉ r.session.names ∧
    (∀ name, name = channel ∨ name ∈ r.session.names → name ∈ r'.session.names) ∧
    ∀ entry ∈ r'.session.lines,
      latest history node = some entry.1 ∧ entry.1 ∉ handedOut history ∧ entry.2.Lost ∨
      ¬ (latest history node = some entry.1 ∧ entry.1 ∉ handedOut history) ∧
        (entry = (channel, ⟨.new, .ready, .registered⟩) ∨ entry ∈ r.session.lines) := by
  obtain ⟨session, hadd, -, hsession⟩ := sink_cases h
  obtain ⟨hnew, -, hlines⟩ := Session.add_cases hadd
  have hnames : ∀ name, name = channel ∨ name ∈ r.session.names → name ∈ session.names := by
    rintro name (rfl | hname)
    · exact List.mem_map_of_mem ((hlines _).mpr (.inl rfl))
    · exact (Session.Comes.add hadd).names hname
  refine ⟨hnew, ?_⟩
  cases horphan : (r.wiring.register node channel).1 with
  | none =>
      rw [horphan] at hsession
      rw [hsession]
      refine ⟨hnames, fun entry hentry => .inr ⟨fun hlast => ?_, (hlines entry).mp hentry⟩⟩
      rw [hr.register_fst.mpr hlast] at horphan
      cases horphan
  | some old =>
      rw [horphan] at hsession
      obtain ⟨hlatest, hout⟩ := hr.register_fst.mp horphan
      rw [hsession]
      refine ⟨fun name hname => ?_, fun entry hentry => ?_⟩
      · rw [Session.names_orphan]
        exact hnames name hname
      · rcases Session.mem_orphan hentry with ⟨rfl, hlost⟩ | ⟨hother, hentry⟩
        · exact .inl ⟨hlatest, hout, hlost⟩
        · refine .inr ⟨fun hlast => ?_, (hlines entry).mp hentry⟩
          rw [hlatest] at hlast
          exact hother (Option.some.inj hlast.1).symm

theorem fresh_of_sink (hr : Records history r) (h : r.sink node channel = .ok r') :
    channel ∉ (made history).map Prod.snd :=
  fun hmade => (hr.mem_sink h).1 (hr.known channel hmade)

/-- After a registration the registry has the consumer half of the new channel, and of the channels
of the other nodes what it had. -/
theorem waits_sink (hr : Records history r) (h : r.sink node channel = .ok r') {name : String}
    (hlatest : latest (.sink node channel :: history) other = some name)
    (hout : name ∉ handedOut history) {l : Session.Line} (hl : (name, l) ∈ r'.session.lines) :
    l.Waits := by
  have hfresh := hr.fresh_of_sink h
  obtain ⟨hnew, -, hlines⟩ := hr.mem_sink h
  rw [latest_sink] at hlatest
  by_cases hsame : other = node
  · rw [if_pos hsame] at hlatest
    cases hlatest
    rcases hlines _ hl with ⟨hlast, -⟩ | ⟨-, heq | hold⟩
    · exact absurd (mem_channels_of_latest hlast) hfresh
    · cases heq
      exact ⟨rfl, rfl⟩
    · exact absurd (List.mem_map_of_mem hold) hnew
  · rw [if_neg hsame] at hlatest
    rcases hlines _ hl with ⟨hlast, -⟩ | ⟨-, heq | hold⟩
    · exact absurd (latest_inj hr.channels hlatest hlast) hsame
    · cases heq
      exact absurd (mem_channels_of_latest hlatest) hfresh
    · exact hr.waits other name hlatest hout l hold

theorem lost_sink (hr : Records history r) (h : r.sink node channel = .ok r') {name : String}
    (hreplaced : Replaced (.sink node channel :: history) name) {l : Session.Line}
    (hl : (name, l) ∈ r'.session.lines) : l.Lost := by
  have hfresh := hr.fresh_of_sink h
  rcases (hr.mem_sink h).2.2 _ hl with ⟨-, -, hlost⟩ | ⟨hkept, heq | hold⟩
  · exact hlost
  · cases heq
    rcases hreplaced with ⟨hlast, -⟩ | hbefore
    · exact absurd (mem_channels_of_latest hlast) hfresh
    · exact absurd (mem_made_of_replaced hbefore) hfresh
  · exact hr.lost name (hreplaced.resolve_left hkept) l hold

/-- A channel that is made. -/
theorem sink (hr : Records history r) (h : r.sink node channel = .ok r') :
    Records (.sink node channel :: history) r' where
  outputs := by
    intro other
    have hunhanded : channel ∉ handedOut history :=
      fun hmem => hr.fresh_of_sink h (hr.handed channel hmem)
    obtain ⟨session, -, hwiring, -⟩ := sink_cases h
    rw [hwiring, Wiring.output?_register, latest_sink, hr.outputs other]
    by_cases hsame : other = node
    · simp [hsame, handedOut, hunhanded]
    · rw [if_neg hsame, if_neg hsame]
      rfl
  nodup := by
    obtain ⟨session, -, hwiring, -⟩ := sink_cases h
    rw [hwiring]
    exact Wiring.nodup_nodes_put hr.nodup _
  nodes := by
    intro other
    obtain ⟨session, -, hwiring, -⟩ := sink_cases h
    rw [hwiring]
    show other ∈ (r.wiring.put node _).nodes ↔ other ∈ node :: (made history).map Prod.fst
    rw [Wiring.mem_nodes_put, hr.nodes other, List.mem_cons]
  channels := List.nodup_cons.mpr ⟨hr.fresh_of_sink h, hr.channels⟩
  once := hr.once
  handed := fun name hname => List.mem_cons_of_mem _ (hr.handed name hname)
  known := fun name hname =>
    (hr.mem_sink h).2.1 name ((List.mem_cons.mp hname).imp_right (hr.known name))
  waits := fun _ _ hlatest hout _ hl => hr.waits_sink h hlatest hout hl
  lost := fun _ hreplaced _ hl => hr.lost_sink h hreplaced hl

/-- A consumer half that is handed out. -/
theorem take (hr : Records history r) (hlatest : latest history node = some channel)
    (hout : channel ∉ handedOut history) :
    Records (.take q (.ok channel) :: history)
      ⟨r.wiring.put node ⟨channel, true⟩, r.session.handOut channel⟩ where
  outputs := by
    intro other
    show (r.wiring.put node _).output? other = (latest history other).map fun name =>
      ⟨name, decide (name ∈ channel :: handedOut history)⟩
    rw [Wiring.output?_put, hr.outputs other]
    by_cases hsame : other = node
    · simp [hsame, hlatest]
    · rw [if_neg hsame]
      refine Option.map_congr fun name hname => ?_
      have hother : name ≠ channel := by
        rintro rfl
        exact hsame (latest_inj hr.channels hname hlatest)
      simp [hother]
  nodup := Wiring.nodup_nodes_put hr.nodup _
  nodes := by
    intro other
    show other ∈ (r.wiring.put node _).nodes ↔ other ∈ (made history).map Prod.fst
    rw [Wiring.mem_nodes_put, hr.nodes other, or_iff_right_of_imp]
    rintro rfl
    exact Lookup.mem_keys hlatest
  channels := hr.channels
  once := List.nodup_cons.mpr ⟨hout, hr.once⟩
  handed := List.forall_mem_cons.mpr ⟨mem_channels_of_latest hlatest, hr.handed⟩
  known := by
    intro name hname
    rw [Session.names_handOut]
    exact hr.known name hname
  waits := by
    intro other name hlatest' hout' l hl
    obtain ⟨hother, hbefore⟩ := not_or.mp (List.mem_cons.not.mp hout')
    rcases Session.mem_handOut hl with ⟨rfl, -⟩ | ⟨-, hold⟩
    · exact absurd rfl hother
    · exact hr.waits other name hlatest' hbefore l hold
  lost := by
    intro name hreplaced l hl
    rcases Session.mem_handOut hl with ⟨rfl, -⟩ | ⟨-, hold⟩
    · exact absurd hlatest (latest_ne_of_replaced hr.channels hreplaced node)
    · exact hr.lost name hreplaced l hold

/-- A request that cannot be met. -/
theorem refuse (hr : Records history r) (d : WiringDefect) :
    Records (.take q (.error d) :: history) r :=
  ⟨hr.outputs, hr.nodup, hr.nodes, hr.channels, hr.once, hr.handed, hr.known, hr.waits, hr.lost⟩

/-- What is done with the halves that are held is nothing to the registry. -/
theorem traffic (hr : Records history r) {session : Session} (h : r.session.Traffic session) :
    Records (.traffic :: history) { r with session } where
  outputs := hr.outputs
  nodup := hr.nodup
  nodes := hr.nodes
  channels := hr.channels
  once := hr.once
  handed := hr.handed
  known := fun name hname => h.comes.names (hr.known name hname)
  waits := by
    intro node name hlatest hout l hl
    obtain ⟨l₀, hl₀, hgoes⟩ := h.comes.lines _ hl (hr.known name (mem_channels_of_latest hlatest))
    exact hgoes.waits (hr.waits node name hlatest hout l₀ hl₀)
  lost := by
    intro name hreplaced l hl
    obtain ⟨l₀, hl₀, hgoes⟩ := h.comes.lines _ hl (hr.known name (mem_made_of_replaced hreplaced))
    exact hgoes.lost (hr.lost name hreplaced l₀ hl₀)

/-- **Every call keeps what is recorded.** -/
theorem step {event : Event} (hr : Records history r) (h : Step p r event r') :
    Records (event :: history) r' := by
  cases h with
  | sink hsink => exact hr.sink hsink
  | traffic htraffic => exact hr.traffic htraffic
  | @take q result _ htake =>
      obtain ⟨d, -, hfailed⟩ | ⟨node, channel, -, hlatest, hout, -, htaken⟩ := hr.take_cases p q
      · rw [hfailed] at htake
        cases htake
        exact hr.refuse d
      · rw [htaken] at htake
        cases htake
        exact hr.take hlatest hout

end Records

/-- **A registry is at every moment what its history says.** -/
theorem Run.records (h : Run p history r) : Records history r := by
  induction h with
  | empty => exact .empty
  | step _ hstep ih => exact ih.step hstep

/-! ### What is answered -/

namespace Records

/-- As many nodes have an output as channels were made for. -/
theorem size_eq (hr : Records history r) :
    r.wiring.size = ((made history).map Prod.fst).toFinset.card := by
  have hsame : r.wiring.nodes.toFinset = ((made history).map Prod.fst).toFinset := by
    ext node
    rw [List.mem_toFinset, List.mem_toFinset]
    exact hr.nodes node
  rw [← hsame, List.toFinset_card_of_nodup hr.nodup]
  exact (List.length_map _).symm

/-- A consumer half that is handed out can be used, and its channel has not lost it. -/
theorem sourceOf_take (hr : Records history r) (hlatest : latest history node = some channel)
    (hout : channel ∉ handedOut history) :
    ∃ l, (r.session.handOut channel).sourceOf channel = .ok l ∧ l.channel.consumer = true := by
  have hname : channel ∈ (r.session.handOut channel).names := by
    rw [Session.names_handOut]
    exact hr.known channel (mem_channels_of_latest hlatest)
  obtain ⟨l, hline⟩ := Session.line?_of_mem_names hname
  rcases Session.mem_handOut (Session.mem_of_line? hline) with ⟨-, l₀, hl₀, rfl⟩ | ⟨hne, -⟩
  · refine ⟨{ l₀ with source := .ready }, ?_, (hr.waits node channel hlatest hout l₀ hl₀).2⟩
    unfold Session.sourceOf
    rw [hline]
    rfl
  · exact absurd rfl hne

/-- A channel that was replaced in time is without a consumer. -/
theorem line?_of_replaced (hr : Records history r) (h : Replaced history channel) :
    ∃ l, r.session.line? channel = some l ∧ l.Lost := by
  obtain ⟨l, hline⟩ :=
    Session.line?_of_mem_names (hr.known channel (mem_made_of_replaced h))
  exact ⟨l, hline, hr.lost channel h l (Session.mem_of_line? hline)⟩

end Records

theorem not_mem_handedOut_of_replaced (h : Run p history r) (hreplaced : Replaced history channel) :
    channel ∉ handedOut history := by
  induction h with
  | empty => exact hreplaced.elim
  | @step history r r' event hbefore hstep ih =>
      cases hstep with
      | traffic => exact ih hreplaced
      | @sink node name _ hsink =>
          rcases hreplaced with ⟨-, hout⟩ | hreplaced
          · exact hout
          · exact ih hreplaced
      | @take q result _ htake =>
          have hr := hbefore.records
          obtain ⟨d, -, hfailed⟩ | ⟨node, name, -, hlatest, -, -, htaken⟩ := hr.take_cases p q
          · rw [hfailed] at htake
            cases htake
            exact ih hreplaced
          · rw [htaken] at htake
            cases htake
            refine List.not_mem_cons_of_ne_of_not_mem ?_ (ih hreplaced)
            rintro rfl
            exact latest_ne_of_replaced hr.channels hreplaced node hlatest

/-- **A consumer half is handed out once, and it is that of the channel that was made last.**

After any calls, with anything done in between with the halves that were handed out:

* a channel can be made for any node;
* a request is answered with the channel that was made last for the node that it leads to, and its
  consumer half can be used; it fails if there is no such input, if no channel was made, or if the
  consumer half of the last one was handed out before, and then nothing changes;
* no consumer half was handed out twice;
* the nodes that are registered are those that a channel was made for, each counted once;
* a channel that was replaced before its consumer half was handed out has lost it: nobody is given
  it any more, and every send fails, because the consumer is gone or because of a cancellation. -/
theorem single_consumer (h : Run p history r) :
    (∀ node channel, r.session.line? channel = none → ∃ r', r.sink node channel = .ok r') ∧
    (∀ q, (r.take p q).1 = answer p history q ∧
      (∀ d, (r.take p q).1 = .error d → (r.take p q).2 = r) ∧
      ∀ channel, (r.take p q).1 = .ok channel →
        ∃ l, (r.take p q).2.session.sourceOf channel = .ok l ∧ l.channel.consumer = true) ∧
    (handedOut history).Nodup ∧
    r.wiring.size = ((made history).map Prod.fst).toFinset.card ∧
    (∀ channel, Replaced history channel → channel ∉ handedOut history ∧
      (∃ l, r.session.line? channel = some l ∧ l.channel.consumer = false) ∧
      ∀ l row, r.session.sinkOf channel = .ok l → ∃ session,
        r.session.send channel (.row row) = .ok (.ok (.done (.error
          (if r.session.cancelled then .cancelled else .consumerClosed))), session)) ∧
    (Failure.ofChannel .consumerClosed).kind = .execution := by
  have hr := h.records
  refine ⟨fun node channel hnew => ?_, fun q => ?_, hr.once, hr.size_eq,
    fun channel hreplaced => ?_, rfl⟩
  · unfold sink Session.add
    rw [hnew]
    exact ⟨_, rfl⟩
  · obtain ⟨d, hanswer, hfailed⟩ | ⟨node, channel, -, hlatest, hout, hanswer, htaken⟩ :=
      hr.take_cases p q
    · rw [hfailed, hanswer]
      exact ⟨rfl, fun _ _ => rfl, nofun⟩
    · rw [htaken, hanswer]
      refine ⟨rfl, nofun, fun name hname => ?_⟩
      cases hname
      exact hr.sourceOf_take hlatest hout
  · obtain ⟨l, hline, hlost⟩ := hr.line?_of_replaced hreplaced
    refine ⟨not_mem_handedOut_of_replaced h hreplaced, ⟨l, hline, hlost⟩,
      fun l' row hsink => ?_⟩
    obtain ⟨hline', -⟩ := Session.sinkOf_cases hsink
    cases hline.symm.trans hline'
    exact Session.send_of_lost hsink hlost row

/-- A union of a scan with itself. -/
def selfUnion : Plan :=
  ⟨⟨[⟨.scan "t", []⟩, ⟨.union, [0, 0]⟩], 2⟩, some 1⟩

/-- The output of the scan was registered twice. -/
def registeredTwice : Registry :=
  ⟨⟨[(0, ⟨"b", false⟩)]⟩, ⟨false, [("a", ⟨⟨none, true, false, false⟩, .ready, .gone⟩),
    ("b", ⟨.new, .ready, .registered⟩)]⟩⟩

theorem registeredTwice_run : Run selfUnion [.sink 0 "b", .sink 0 "a"] registeredTwice := by
  have hfirst : Registry.empty.sink 0 "a" = .ok ⟨⟨[(0, ⟨"a", false⟩)]⟩,
      ⟨false, [("a", ⟨.new, .ready, .registered⟩)]⟩⟩ := by
    cbv
  exact .step (.step .empty (.sink hfirst)) (.sink (by cbv))

/-- The first input of the union is the consumer half of the second channel.  It is handed out once,
so there is none for the second input; and nobody receives what is sent on the first channel. -/
theorem single_consumer_of_second_registration :
    ∃ r, registeredTwice.take selfUnion (.source 1 0) = (.ok "b", r) ∧
      (r.take selfUnion (.source 1 1)).1 = .error (.taken 0) ∧ r.wiring.size = 1 ∧
      ∃ session, r.session.send "a" (.row [])
        = .ok (.ok (.done (.error .consumerClosed)), session) := by
  refine ⟨_, rfl, ?_⟩
  have hrun := registeredTwice_run.step (.take (q := .source 1 0) rfl)
  obtain ⟨-, hanswers, -, hsize, hreplaced, -⟩ := single_consumer hrun
  obtain ⟨-, -, hsend⟩ := hreplaced "a" (.inl ⟨rfl, by decide⟩)
  exact ⟨(hanswers (.source 1 1)).1, hsize, hsend _ [] rfl⟩

end Registry

end StreamQuery
