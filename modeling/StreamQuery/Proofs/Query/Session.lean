/-
Serving goes on.

An executor that serves a query serves it after every event and after every call, so
that whatever holds whenever an executor serves a query holds in all states that one
query goes through: workers in any order, cancellations at any time, and calls of any
kind in any order.
-/
import StreamQuery.Proofs.Query.Serving

namespace StreamQuery

namespace Executor

/-! ### Events -/

section Preservation

variable {e e' : Executor} {q : Nat} {a : Assembly} {n n' : Network} {event : Event}

theorem joined_succ {m : Nat} {w : Worker} {o : Outcome} (hw : n.workers[m]? = some w)
    (ho : w.life = .done o) : n.joined (m + 1) = (n.joined m).add o := by
  unfold Network.joined
  rw [List.take_add_one, hw, List.filterMap_append, List.foldl_append]
  simp [ho, Life.outcome?]

/-- What has been learned from workers that are done stays. -/
theorem joined_of_lasts {output m : Nat} (hlasts : n.Lasts n' output)
    (hdone : ∀ (k : Nat) (w : Worker), k < m → n.workers[k]? = some w → ∃ o, w.life = .done o) :
    n'.joined m = n.joined m := by
  have htake : n'.workers.take m = n.workers.take m := by
    refine List.ext_getElem? ?_
    intro k
    rw [List.getElem?_take, List.getElem?_take]
    by_cases hk : k < m
    · rw [if_pos hk, if_pos hk]
      cases hw : n.workers[k]? with
      | none =>
          rw [List.getElem?_eq_none_iff] at hw ⊢
          rw [hlasts.length]
          exact hw
      | some w =>
          obtain ⟨o, ho⟩ := hdone k w hk hw
          exact hlasts.done k w o hw ho
    · rw [if_neg hk, if_neg hk]
  unfold Network.joined
  rw [htake]

theorem drained_of_lasts {i : Nat} (h : n.Drained i) (hlasts : n.Lasts n' i) : n'.Drained i := by
  obtain ⟨c, hc, hf⟩ := h
  obtain ⟨c', hc', -, hf'⟩ := hlasts.root c hc
  exact ⟨c', hc', hf'.trans hf⟩

/-- A query stays where it is when nobody starts or joins its workers. -/
theorem Serves.phase_shift {act : Activity} (h : e.Serves q a n)
    (hshift : e.Shifts e' q a n' act)
    (hcalm : e.started = [] → n' = n ∨ n' = n.cancel)
    (hheard : ∀ c', n'.channels[a.output]? = some c' →
      ∃ c, n.channels[a.output]? = some c ∧ c'.consumer = c.consumer) :
    e'.Phase q a n' := by
  cases h.phase with
  | configured hconfigured houtput hstarted hfresh =>
      refine .configured (hshift.configured.trans hconfigured) (hshift.output.trans houtput)
        (hshift.started.trans hstarted) ?_
      obtain ⟨b, rfl⟩ := hfresh
      rcases hcalm hstarted with rfl | rfl
      · exact ⟨b, rfl⟩
      · exact ⟨true, rfl⟩
  | running hconfigured houtput hstarted hconsumer =>
      refine .running (hshift.configured.trans hconfigured) (hshift.output.trans houtput)
        (hshift.started.trans hstarted) ?_
      intro c' hc'
      obtain ⟨c, hc, hsame⟩ := hheard c' hc'
      rw [hsame]
      exact hconsumer c hc
  | ended hconfigured houtput hstarted hdone =>
      refine .ended (hshift.configured.trans hconfigured) (hshift.output.trans houtput)
        (hshift.started.trans hstarted) ?_
      rcases hcalm hstarted with rfl | rfl
      · exact hdone
      · exact hdone

theorem Shifts.startedWorkers_eq {act : Activity} (hshift : e.Shifts e' q a n' act)
    (h : e.Serves q a n) (hlength : n'.workers.length = n.workers.length) :
    e'.startedWorkers = e.startedWorkers := by
  rw [h.startedWorkers_eq, startedWorkers_of_query hshift.query
    (by rw [hshift.started]; exact h.started_cases), hshift.started]
  simp only [hlength]

/-- While the workers go on or somebody cancels, the caller's call stays where it is. -/
theorem Serves.attends_lasts (h : e.Serves q a n) (hshift : e.Shifts e' q a n' e.activity)
    (hlasts : n.Lasts n' a.output) : e'.Attends q a n' e'.activity := by
  have hattends := h.attends
  have hfinished : (∀ c, n.channels[a.output]? = some c → c.finished = false) →
      ∀ c, n'.channels[a.output]? = some c → c.finished = false := by
    intro hopen c' hc'
    obtain ⟨c, hc⟩ := h.sound.channel_of_root
    obtain ⟨c'', hc'', -, hsame⟩ := hlasts.root c hc
    rw [hc'] at hc''
    cases hc''
    rw [hsame]
    exact hopen c hc
  rw [hshift.activity]
  cases hact : e.activity with
  | idle last => trivial
  | reading waiting =>
      rw [hact] at hattends
      exact ⟨hshift.started.trans hattends.1, fun hw => hfinished (hattends.2 hw)⟩
  | collecting rows waiting =>
      rw [hact] at hattends
      exact ⟨hshift.started.trans hattends.1, fun hw => hfinished (hattends.2 hw)⟩
  | stopping p => trivial
  | draining p before => trivial
  | joining p before left j =>
      rw [hact] at hattends
      obtain ⟨m, hleft, hjoined, hdone, hends⟩ := hattends
      refine ⟨m, ?_, ?_, ?_, ?_⟩
      · rw [hshift.startedWorkers_eq h hlasts.length]
        exact hleft
      · intro hs
        rw [hshift.started] at hs
        rw [joined_of_lasts hlasts (hdone hs)]
        exact hjoined hs
      · intro hs
        rw [hshift.started] at hs
        intro k w hk hw
        have hk' : k < n.workers.length := by
          rw [← hlasts.length]
          exact (List.getElem?_eq_some_iff.mp hw).1
        obtain ⟨o, ho⟩ := hdone hs k _ hk (List.getElem?_eq_getElem hk')
        have hsame := hlasts.done k _ o (List.getElem?_eq_getElem hk') ho
        rw [hw] at hsame
        cases hsame
        exact ⟨o, ho⟩
      · intro hs
        rw [hshift.started] at hs
        rcases hends hs with hc | hd
        · exact .inl (hlasts.cancelled hc)
        · exact .inr (drained_of_lasts hd hlasts)

theorem attends_afterRead {act : Activity} {waiting : Bool} (hreads : act.reads? = some waiting)
    (hstarted : e.started = [q]) (r : Except ChannelError Item) :
    e.Attends q a n (act.afterRead r) := by
  rcases Activity.reads_cases hreads with rfl | ⟨rows, rfl⟩
  · rcases r with err | (row | _) <;> trivial
  · rcases r with err | (row | _)
    · trivial
    · exact ⟨hstarted, fun hf => by cases hf⟩
    · trivial

theorem attends_begun {act : Activity} {waiting : Bool} (hreads : act.reads? = some waiting)
    (hstarted : e.started = [q]) {c : Channel} (hc : n.channels[a.output]? = some c)
    (hopen : c.finished = false) : e.Attends q a n act.begun := by
  have hroot : ∀ c', n.channels[a.output]? = some c' → c'.finished = false := by
    intro c' hc'
    rw [hc] at hc'
    cases hc'
    exact hopen
  rcases Activity.reads_cases hreads with rfl | ⟨rows, rfl⟩
  · exact ⟨hstarted, fun _ => hroot⟩
  · exact ⟨hstarted, fun _ => hroot⟩

/-- A caller that reads has started the query, and it waits only before the closing mark. -/
theorem Serves.attends_read (h : e.Serves q a n) {waiting : Bool}
    (hreads : e.activity.reads? = some waiting) : e.started = [q] ∧
      (waiting = true → ∀ c, n.channels[a.output]? = some c → c.finished = false) := by
  have hattends := h.attends
  rcases Activity.reads_cases hreads with hact | ⟨rows, hact⟩
  · rw [hact] at hattends
    exact hattends
  · rw [hact] at hattends
    exact hattends

/-- The next worker to be joined. -/
theorem Serves.next_joined (h : e.Serves q a n) {q' k m : Nat} {left : List (Nat × Nat)}
    {j : Joined} (hjoins : e.Joins q a n ((q', k) :: left) j m) :
    e.started = [q] ∧ q' = q ∧ k = m ∧ left = e.startedWorkers.drop (m + 1) := by
  have hleft := hjoins.left_eq
  have hhead : e.startedWorkers[m]? = some (q', k) := by
    rw [← List.head?_drop, ← hleft]
    rfl
  have htail : left = e.startedWorkers.drop (m + 1) := by
    rw [← List.tail_drop, ← hleft]
    rfl
  rw [h.startedWorkers_eq] at hhead
  rcases h.started_cases with hs | hs
  · rw [hs, if_neg (by simp)] at hhead
    simp at hhead
  · rw [if_pos hs, List.getElem?_map, Option.map_eq_some_iff] at hhead
    obtain ⟨i, hi, heq⟩ := hhead
    cases heq
    have hm : m < (List.range n.workers.length).length := (List.getElem?_eq_some_iff.mp hi).1
    rw [List.length_range] at hm
    rw [List.getElem?_range hm] at hi
    cases hi
    exact ⟨hs, rfl, rfl, htail⟩

/-- When nobody is left to be joined, all workers are done. -/
theorem Serves.all_joined (h : e.Serves q a n) {j : Joined} {m : Nat}
    (hjoins : e.Joins q a n [] j m) (hstarted : e.started = [q]) :
    n.AllDone ∧ n.workers.length ≤ m := by
  have hm : n.workers.length ≤ m := by
    have hlen := congrArg List.length hjoins.left_eq
    rw [h.startedWorkers_eq, if_pos hstarted] at hlen
    simp at hlen
    omega
  refine ⟨?_, hm⟩
  intro k w hw
  have hk : k < n.workers.length := (List.getElem?_eq_some_iff.mp hw).1
  exact hjoins.done hstarted k w (by omega) hw

/-- Only a worker that is done has an outcome to be joined. -/
theorem done_of_outcome {query : Query} {k : Nat} {o : Outcome}
    (hquery : e.queries[q]? = some query) (ho : e.outcome? q k = some o) :
    ∃ w, query.network.workers[k]? = some w ∧ w.life = .done o := by
  unfold outcome? at ho
  rw [hquery, Option.bind_eq_bind, Option.bind_some, Option.bind_eq_bind] at ho
  obtain ⟨w, hw, hlife⟩ := Option.bind_eq_some_iff.mp ho
  refine ⟨w, hw, ?_⟩
  cases hl : w.life with
  | done o' =>
      rw [hl] at hlife
      cases hlife
      rfl
  | working s b =>
      rw [hl] at hlife
      simp [Life.outcome?] at hlife
  | leaving o' sources sink =>
      rw [hl] at hlife
      simp [Life.outcome?] at hlife

theorem Serves.done_of_outcome (h : e.Serves q a n) {k : Nat} {o : Outcome}
    (ho : e.outcome? q k = some o) : ∃ w, n.workers[k]? = some w ∧ w.life = .done o :=
  Executor.done_of_outcome h.query ho

/-- When one more worker is joined, one less is left to be joined. -/
theorem Serves.joins_next (h : e.Serves q a n) {q' k m : Nat} {left : List (Nat × Nat)}
    {j : Joined} {o : Outcome} {act : Activity} (hjoins : e.Joins q a n ((q', k) :: left) j m)
    (ho : e.outcome? q' k = some o) (hshift : e.Shifts e' q a n act) :
    e'.Joins q a n left (j.add o) (m + 1) := by
  obtain ⟨hs, rfl, rfl, hleft⟩ := h.next_joined hjoins
  obtain ⟨w, hw, hlife⟩ := h.done_of_outcome ho
  refine ⟨?_, ?_, ?_, fun _ => hjoins.ends hs⟩
  · rw [hshift.startedWorkers_eq h rfl]
    exact hleft
  · intro _
    rw [joined_succ hw hlife, hjoins.joined_eq hs]
  · intro _ i v hi hv
    rcases Nat.lt_or_ge i k with hlt | hge
    · exact hjoins.done hs i v hlt hv
    · obtain rfl : i = k := by omega
      rw [hw] at hv
      cases hv
      exact ⟨o, hlife⟩

/-- Before the first worker is joined, the query was cancelled or its answer is drained. -/
theorem Serves.joins_first (h : e.Serves q a n) {act : Activity} (hshift : e.Shifts e' q a n' act)
    (hlength : n'.workers.length = n.workers.length)
    (hends : e.started = [q] → n'.cancelled = true ∨ n'.Drained a.output) :
    e'.Joins q a n' e.startedWorkers .none 0 := by
  refine ⟨?_, fun _ => rfl, fun _ k w hk => absurd hk (Nat.not_lt_zero k), ?_⟩
  · rw [hshift.startedWorkers_eq h hlength, List.drop_zero]
  · intro hs
    rw [hshift.started] at hs
    exact hends hs

/-- **An executor that serves a query goes on serving it.** -/
theorem Tick.serves (htick : Tick e q a n event e' n') (h : e.Serves q a n) : e'.Serves q a n' := by
  have hlasting : ∀ {n' : Network}, e.Shifts e' q a n' e.activity → n.Lasts n' a.output →
      n'.Sound a.output → (e.started = [] → n' = n ∨ n' = n.cancel) → e'.Serves q a n' := by
    intro n' hshift hlasts hsound hcalm
    refine ⟨hshift.query, hshift.schema.trans h.schema, hshift.handle.trans h.handle, hsound,
      h.phase_shift hshift hcalm ?_, h.attends_lasts hshift hlasts⟩
    intro c' hc'
    obtain ⟨c, hc⟩ := h.sound.channel_of_root
    obtain ⟨c'', hc'', hconsumer, -⟩ := hlasts.root c hc
    rw [hc'] at hc''
    cases hc''
    exact ⟨c, hc, hconsumer⟩
  have hquiet : ∀ {act : Activity}, e.Shifts e' q a n act → e'.Attends q a n act →
      e'.Serves q a n := by
    intro act hshift hact
    refine ⟨hshift.query, hshift.schema.trans h.schema, hshift.handle.trans h.handle, h.sound,
      h.phase_shift hshift (fun _ => .inl rfl) fun c' hc' => ⟨c', hc', rfl⟩, ?_⟩
    rw [hshift.activity]
    exact hact
  have hread : ∀ {waiting : Bool}, e.activity.reads? = some waiting → e.started = [q] :=
    fun hreads => (h.attends_read hreads).1
  cases htick with
  | worker hstarted hw hstep hshift =>
      refine hlasting hshift (hstep.lasts h.sound hw) (hstep.sound h.sound hw) ?_
      intro hs
      rw [hstarted] at hs
      simp at hs
  | cancel _ hshift =>
      exact hlasting hshift (n.lasts_cancel a.output) (h.sound.withCancelled true)
        fun _ => .inr rfl
  | elsewhere _ hshift => exact hlasting hshift (.refl n a.output) h.sound fun _ => .inl rfl
  | wait hreads hc hopen hshift =>
      exact hquiet hshift
        (attends_begun hreads (hshift.started.trans (hread hreads)) hc hopen)
  | @take c item hreads hc hslot hshift =>
      refine ⟨hshift.query, hshift.schema.trans h.schema, hshift.handle.trans h.handle,
        h.sound.caller_took hc hslot, h.phase_shift hshift ?_ ?_, ?_⟩
      · intro hs
        rw [hread hreads] at hs
        simp at hs
      · intro c' hc'
        rw [Network.channels_setChannel hc, if_pos rfl] at hc'
        cases hc'
        exact ⟨c, hc, rfl⟩
      · rw [hshift.activity]
        exact attends_afterRead hreads (hshift.started.trans (hread hreads)) _
  | again hreads hdrained hshift =>
      exact hquiet hshift (attends_afterRead hreads (hshift.started.trans (hread hreads)) _)
  | fail hreads hwhy hshift =>
      exact hquiet hshift (attends_afterRead hreads (hshift.started.trans (hread hreads)) _)
  | stop hact hshift => exact hquiet hshift trivial
  | @drain p before n' hact hn hshift =>
      have hlength : n'.workers.length = n.workers.length := by
        rcases hn with ⟨rfl, -⟩ | ⟨rfl, -⟩ <;> rfl
      have hcalm : e.started = [] → n' = n ∨ n' = n.cancel :=
        fun _ => hn.imp And.left And.left
      have hsound : n'.Sound a.output := by
        rcases hn with ⟨rfl, -⟩ | ⟨rfl, -⟩
        · exact h.sound
        · exact h.sound.withCancelled true
      refine ⟨hshift.query, hshift.schema.trans h.schema, hshift.handle.trans h.handle, hsound,
        h.phase_shift hshift hcalm ?_, ?_⟩
      · intro c' hc'
        rcases hn with ⟨rfl, -⟩ | ⟨rfl, -⟩ <;> exact ⟨c', hc', rfl⟩
      · rw [hshift.activity]
        refine ⟨0, h.joins_first hshift hlength ?_⟩
        intro hs
        rcases hn with ⟨rfl, hout | hdrained⟩ | ⟨rfl, -⟩
        · rw [h.output_of_started hs] at hout
          simp at hout
        · exact .inr hdrained
        · exact .inl rfl
  | join hact ho hshift =>
      have hattends := h.attends
      rw [hact] at hattends
      obtain ⟨m, hjoins⟩ := hattends
      exact hquiet hshift ⟨m + 1, h.joins_next hjoins ho hshift⟩
  | @finish p before j n' hact hworkers _ hsound hsame hquery hschema hhandle hconfigured houtput
      hstarted hanswer =>
      have hattends := h.attends
      rw [hact] at hattends
      obtain ⟨m, hjoins⟩ := hattends
      refine ⟨hquery, hschema.trans h.schema, hhandle.trans h.handle, hsound h.sound, ?_, ?_⟩
      · cases h.phase with
        | configured hconf hout _ hfresh =>
            obtain rfl := hsame hout
            exact .configured (hconfigured.trans hconf) houtput hstarted hfresh
        | running hconf _ hs _ =>
            refine .ended (hconfigured.trans hconf) houtput hstarted ?_
            intro k w hw
            rw [hworkers] at hw
            exact (h.all_joined hjoins hs).1 k w hw
        | ended hconf hout _ hdone =>
            obtain rfl := hsame hout
            exact .ended (hconfigured.trans hconf) houtput hstarted hdone
      · rw [hanswer]
        trivial

end Preservation

/-! ### How serving begins, and how calls begin -/

/-- An executor that is in no call and has no started queries, as a new one or one whose queries
were all closed. -/
structure AtRest (e : Executor) : Prop where
  idle : ∃ last, e.activity = .idle last
  output : e.output = none
  started : e.started = []

theorem new_atRest : new.AtRest :=
  ⟨⟨.ok, rfl⟩, rfl, rfl⟩

section Calls

variable {e : Executor} {q : Nat} {a : Assembly} {n : Network} {p : Plan} {cat : Catalog}
  {last : Answer}

/-- An executor at rest serves the query that it is given. -/
theorem serves_configure (h : e.AtRest) (ha : p.assemble cat = .ok a) :
    (e.configure a).Serves e.queries.length a (.ofAssembly a) := by
  obtain ⟨root, schemas, t, -, hl, -, -, -⟩ := Assembly.layout_of_assemble ha
  obtain ⟨last, hidle⟩ := h.idle
  refine ⟨?_, rfl, rfl, Network.sound_ofAssembly hl,
    .configured rfl h.output h.started ⟨false, rfl⟩, ?_⟩
  · unfold configure
    simp
  · have hact : (e.configure a).activity = .idle last := hidle
    rw [hact]
    trivial

theorem Serves.at_activity (h : e.Serves q a n) {act : Activity} (hact : e.Attends q a n act) :
    ({ e with activity := act } : Executor).Serves q a n := by
  refine ⟨h.query, h.schema, h.handle, h.sound, ?_, ?_⟩
  · cases h.phase with
    | configured h₁ h₂ h₃ h₄ => exact .configured h₁ h₂ h₃ h₄
    | running h₁ h₂ h₃ h₄ => exact .running h₁ h₂ h₃ h₄
    | ended h₁ h₂ h₃ h₄ => exact .ended h₁ h₂ h₃ h₄
  · cases act with
    | joining p before left j =>
        obtain ⟨m, hleft, hjoined, hdone, hends⟩ := hact
        exact ⟨m, hleft, hjoined, hdone, hends⟩
    | _ => exact hact

theorem Serves.cancelled (h : e.Serves q a n) : e.cancel.Serves q a n.cancel := by
  obtain ⟨⟨hschema, hhandle, hconfigured, houtput⟩, hstarted⟩ := cancel_kept e
  have hactivity : e.cancel.activity = e.activity := by
    unfold cancel
    split <;> rfl
  have htick : Tick e q a n (.cancel q) e.cancel n.cancel :=
    .cancel rfl ⟨cancel_query h, hschema, hhandle, hconfigured, houtput, hstarted, hactivity⟩
  exact htick.serves h

/-- The executor once its query is started. -/
def launched (e : Executor) (q : Nat) : Executor :=
  { e with configured := none, output := some q, started := [q] }

/-- A query is started once. -/
theorem Serves.startQuery_cases (h : e.Serves q a n) :
    (e.configured = none ∧ e.startQuery = .error .notConfigured) ∨
      (e.configured = some q ∧ e.startQuery = .ok (e.launched q) ∧
        (e.launched q).Phase q a n) := by
  cases h.phase with
  | running hconfigured _ _ _ =>
      refine .inl ⟨hconfigured, ?_⟩
      unfold startQuery
      rw [hconfigured]
  | ended hconfigured _ _ _ =>
      refine .inl ⟨hconfigured, ?_⟩
      unfold startQuery
      rw [hconfigured]
  | configured hconfigured houtput hstarted hfresh =>
      refine .inr ⟨hconfigured, ?_, .running rfl rfl rfl ?_⟩
      · unfold startQuery
        simp only [hconfigured, dropOutput_of_none houtput, hstarted, List.nil_append, launched]
      · intro c hc
        obtain ⟨b, rfl⟩ := hfresh
        obtain rfl := Network.channels_ofAssembly hc
        rfl

theorem Serves.start (h : e.Serves q a n) (hphase : (e.launched q).Phase q a n) {act : Activity}
    (hact : ∀ e : Executor, e.started = [q] → e.Attends q a n act) :
    ({ e.launched q with activity := act } : Executor).Serves q a n := by
  refine ⟨h.query, h.schema, h.handle, h.sound, ?_, hact _ rfl⟩
  cases hphase with
  | configured h₁ h₂ h₃ h₄ => cases h₃
  | running h₁ h₂ h₃ h₄ => exact .running h₁ h₂ h₃ h₄
  | ended h₁ h₂ h₃ h₄ => cases h₃

/-- Nothing has happened to a query that is configured and not started. -/
theorem Serves.untouched (h : e.Serves q a n) (hconfigured : e.configured = some q) :
    e.started = [] ∧ ∃ b, n = { Network.ofAssembly a with cancelled := b } := by
  cases h.phase with
  | configured _ _ hstarted hfresh => exact ⟨hstarted, hfresh⟩
  | running hnone _ _ _ =>
      rw [hnone] at hconfigured
      simp at hconfigured
  | ended hnone _ _ _ =>
      rw [hnone] at hconfigured
      simp at hconfigured

/-- A configured query is executed: its answer is about to be read, and no worker has moved. -/
theorem Serves.execute (h : e.Serves q a n) (hconfigured : e.configured = some q) :
    (e.begin .execute).Serves q a n ∧ (e.begin .execute).activity = .collecting [] false ∧
      (e.begin .execute).started = [q] ∧
      ∃ b, n = { Network.ofAssembly a with cancelled := b } := by
  obtain ⟨-, hfresh⟩ := h.untouched hconfigured
  rcases h.startQuery_cases with ⟨hnone, -⟩ | ⟨-, hs, hphase⟩
  · rw [hnone] at hconfigured
    simp at hconfigured
  · have hbegin : e.begin .execute = { e.launched q with activity := .collecting [] false } := by
      unfold begin
      simp only [h.schema, hs]
    rw [hbegin]
    exact ⟨h.start hphase fun _ hs' => ⟨hs', fun hf => by cases hf⟩, rfl, rfl, hfresh⟩

/-- Beginning a call does nothing to the query, unless it cancels it. -/
theorem Serves.call_cases (h : e.Serves q a n) (r : Request) :
    ∃ n', (e.begin r).Serves q a n' ∧ (n' = n ∨ n' = n.cancel) := by
  cases r with
  | start =>
      unfold begin
      rcases h.startQuery_cases with ⟨-, hs⟩ | ⟨-, hs, hphase⟩
      · simp only [hs, finish]
        exact ⟨n, h.at_activity trivial, .inl rfl⟩
      · simp only [hs, finish]
        exact ⟨n, h.start hphase fun _ _ => trivial, .inl rfl⟩
  | next =>
      cases houtput : e.output with
      | none =>
          have hbegin : e.begin .next = e.finish (.failed .notStarted) := by
            unfold begin
            rw [houtput]
          rw [hbegin]
          exact ⟨n, h.at_activity trivial, .inl rfl⟩
      | some _ =>
          have hbegin : e.begin .next = { e with activity := .reading false } := by
            unfold begin
            rw [houtput]
          have hreading : e.Attends q a n (.reading false) := by
            refine ⟨?_, fun hf => by cases hf⟩
            cases h.phase with
            | configured _ hnone _ _ => rw [hnone] at houtput; cases houtput
            | running _ _ hstarted _ => exact hstarted
            | ended _ hnone _ _ => rw [hnone] at houtput; cases houtput
          rw [hbegin]
          exact ⟨n, h.at_activity hreading, .inl rfl⟩
  | close =>
      have hbegin : e.begin .close = { e with activity := .stopping .close } := by
        unfold begin
        rw [h.handle]
      have hstopping : e.Attends q a n (.stopping .close) := trivial
      rw [hbegin]
      exact ⟨n, h.at_activity hstopping, .inl rfl⟩
  | execute =>
      rcases h.startQuery_cases with ⟨-, hs⟩ | ⟨hconfigured, -, -⟩
      · have hbegin : e.begin .execute = e.finish (.failed .notConfigured) := by
          unfold begin
          rw [h.schema, hs]
        rw [hbegin]
        exact ⟨n, h.at_activity trivial, .inl rfl⟩
      · exact ⟨n, (h.execute hconfigured).1, .inl rfl⟩
  | shutDown =>
      unfold begin
      by_cases hempty : e.started.isEmpty = true
      · rw [if_pos hempty]
        exact ⟨n, h.at_activity trivial, .inl rfl⟩
      · rw [if_neg hempty]
        have hcancelled := h.cancelled
        obtain ⟨-, hstarted⟩ := cancel_kept e
        have hworkers : e.cancel.startedWorkers = e.startedWorkers := by
          rw [hcancelled.startedWorkers_eq, h.startedWorkers_eq, hstarted]
          rfl
        have hjoining : e.cancel.Attends q a n.cancel
            (.joining .shutDown false e.startedWorkers .none) :=
          ⟨0, by rw [hworkers, List.drop_zero], fun _ => rfl,
            fun _ k w hk => absurd hk (Nat.not_lt_zero k), fun _ => .inl rfl⟩
        exact ⟨n.cancel, hcancelled.at_activity hjoining, .inr rfl⟩

/-- **Whatever the caller asks, the executor goes on serving.** -/
theorem Serves.call (h : e.Serves q a n) (r : Request) : ∃ n', (e.begin r).Serves q a n' := by
  obtain ⟨n', hserves, -⟩ := h.call_cases r
  exact ⟨n', hserves⟩

end Calls

/-! ### Runs -/

/-- The executor after these events, if each of them can happen when its turn comes. -/
def after (e : Executor) (events : List Event) : Option Executor :=
  events.foldlM step e

theorem after_cons {e e'' : Executor} {event : Event} {events : List Event}
    (h : e.after (event :: events) = some e'') :
    ∃ e', e.step event = some e' ∧ e'.after events = some e'' := by
  unfold after at h
  rw [List.foldlM_cons, Option.bind_eq_bind, Option.bind_eq_some_iff] at h
  exact h

theorem after_append {e e'' : Executor} {first second : List Event}
    (h : e.after (first ++ second) = some e'') :
    ∃ e', e.after first = some e' ∧ e'.after second = some e'' := by
  unfold after at h
  rw [List.foldlM_append, Option.bind_eq_bind, Option.bind_eq_some_iff] at h
  exact h

/-- What every event of a run preserves, the run preserves. -/
theorem after_keeps {P : Executor → Prop} :
    ∀ {events : List Event} {e e' : Executor}, P e →
      (∀ event ∈ events, ∀ e e' : Executor, P e → e.step event = some e' → P e') →
      e.after events = some e' → P e' := by
  intro events
  induction events with
  | nil =>
      intro e e' hp _ hrun
      cases hrun
      exact hp
  | cons event events ih =>
      intro e e'' hp hstep hrun
      obtain ⟨e', he', hrun'⟩ := after_cons hrun
      exact ih (hstep event List.mem_cons_self e e' hp he')
        (fun event' hmem => hstep event' (List.mem_cons_of_mem _ hmem)) hrun'

/-- What every event of a run preserves while the executor serves, the run preserves. -/
theorem Serves.run {q : Nat} {a : Assembly} {P : Executor → Network → Prop} {events : List Event}
    {e e' : Executor} {n : Network} (h : e.Serves q a n) (hp : P e n)
    (hstep : ∀ event ∈ events, ∀ {e e' : Executor} {n n' : Network}, e.Serves q a n → P e n →
      Tick e q a n event e' n' → P e' n')
    (hrun : e.after events = some e') : ∃ n', e'.Serves q a n' ∧ P e' n' := by
  refine after_keeps (P := fun e => ∃ n, e.Serves q a n ∧ P e n) ⟨n, h, hp⟩ ?_ hrun
  rintro event hmem e e' ⟨n, h, hp⟩ he'
  obtain ⟨n', htick⟩ := step_tick h he'
  exact ⟨n', htick.serves h, hstep event hmem h hp htick⟩

end Executor

end StreamQuery
