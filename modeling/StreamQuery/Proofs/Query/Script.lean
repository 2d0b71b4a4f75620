/-
No operator crashes on less than its input.

When an operator ends before its end, those that read from it get only a part of the rows
they were to get, and it is no longer known what a channel will deliver.  But what it was
to deliver can still be told.  `Network.Follows` gives every channel a script: the rows
that were still to come through it had no operator failed.  An item is taken off the
front of a script, a failure leaves all scripts as they are, and whoever is at work
computes its own script from those of its inputs.

An expression without a value would leave no script to compute.  So where the plan yields
rows no operator ever crashes, whatever becomes of the others.
-/
import StreamQuery.Proofs.Plan.Path
import StreamQuery.Proofs.Query.Acceptance
import StreamQuery.Proofs.Query.Start

namespace StreamQuery

/-! ### Plans that yield rows everywhere -/

namespace Plan

variable {p : Plan} {cat : Catalog} {n m : NodeId} {d : RunDefect}

theorem Breaks.of_reaches (h : p.Reaches n m) (hd : p.Breaks cat m d) : p.Breaks cat n d := by
  obtain ⟨path, hpath⟩ := h
  induction path generalizing n with
  | nil =>
      cases hpath
      exact hd
  | cons i path ih =>
      rw [follow, Option.bind_eq_some_iff] at hpath
      obtain ⟨k, hk, hrest⟩ := hpath
      exact .input (List.mem_of_getElem? hk) (ih hrest)

end Plan

namespace Network

/-- A channel still has its script: the rows that were to come through it. -/
structure Follows (n : Network) (script : Nat → List Row) : Prop where
  slot : ∀ (i : Nat) (c : Channel), n.channels[i]? = some c → ∃ rows, script i = c.held ++ rows
  closed : ∀ (i : Nat) (c : Channel), n.channels[i]? = some c → c.Closed → script i = []
  /-- A worker at work computes its script from those of its inputs. -/
  live : ∀ (k : Nat) (w : Worker) (s : Stage) (waiting : Bool) (c : Channel),
    n.workers[k]? = some w → w.life = .working s waiting → n.channels[k]? = some c →
    ∃ ins rows, (∀ pos i, w.inputs[pos]? = some i → ins pos = script i) ∧
      s.rest ins = .ok rows ∧ script k = c.held ++ rows

namespace Follows

variable {n n' : Network} {output i k : Nat} {w : Worker} {s after : Stage} {c : Channel}
  {row : Row} {item : Item} {script : Nat → List Row} {waiting : Bool}

/-- An operator that follows a script has a value for every expression. -/
theorem not_fail (h : n.Follows script) (hs : n.Sound output) (hw : n.workers[k]? = some w)
    (hlife : w.life = .working s waiting) {d : RunDefect} : s.want ≠ .fail d := by
  intro hwant
  obtain ⟨c, hc⟩ := hs.channel_of_worker hw
  obtain ⟨ins, rows, -, hrest, -⟩ := h.live k w s waiting c hw hlife hc
  rw [Stage.rest_of_want_fail hwant] at hrest
  cases hrest

/-! ### Steps -/

/-- Where no row moves the scripts stay. -/
theorem of_retains (h : n.Follows script) (hr : n.Retains n') : n'.Follows script where
  slot := by
    intro i c' hc'
    obtain ⟨c, hc, -, hheld⟩ := hr.channels i c' hc'
    rw [hheld]
    exact h.slot i c hc
  closed := by
    intro i c' hc' hclosed
    obtain ⟨c, hc, hcl, -⟩ := hr.channels i c' hc'
    exact h.closed i c hc (hcl hclosed)
  live := by
    intro k w' s b c' hw' hlife' hc'
    obtain ⟨c, hc, -, hheld⟩ := hr.channels k c' hc'
    obtain ⟨w, b', hw, hin, hlife⟩ := hr.workers k w' s b hw' hlife'
    rw [hheld, ← hin]
    exact h.live k w s b' c hw hlife hc

/-- The item in the slot is the first of the script. -/
theorem before_tail (h : n.Follows script) (hc : n.channels[i]? = some c)
    (hslot : c.slot = some item) : script i = item.before (script i).tail := by
  cases item with
  | row r =>
      obtain ⟨rows, hrows⟩ := h.slot i c hc
      rw [hrows, Channel.held_of_row hslot]
      rfl
  | endOfStream => exact h.closed i c hc (.inr hslot)

/-- An item that is taken is taken off the script of its channel. -/
theorem taken (h : n.Follows script) (htaken : n.Taken n' i c item) :
    n'.Follows (Function.update script i (script i).tail) where
  slot := by
    intro j cj hcj
    rw [htaken.lookup] at hcj
    by_cases hj : j = i
    · rw [if_pos hj] at hcj
      cases hcj
      exact ⟨_, rfl⟩
    · rw [if_neg hj] at hcj
      rw [Function.update_of_ne hj]
      exact h.slot j cj hcj
  closed := by
    intro j cj hcj hclosed
    rw [htaken.lookup] at hcj
    by_cases hj : j = i
    · subst hj
      rw [if_pos rfl] at hcj
      cases hcj
      rw [Function.update_self]
      cases item with
      | row r => rcases hclosed with hf | hs <;> cases ‹_ = _›
      | endOfStream =>
          rw [h.before_tail htaken.channel htaken.slot]
          rfl
    · rw [if_neg hj] at hcj
      rw [Function.update_of_ne hj]
      exact h.closed j cj hcj hclosed
  live := by
    intro k w' s' b' ck hw' hlife' hck
    obtain ⟨w, s, b, hw, hin, hlife, hsame⟩ := htaken.back k w' s' b' hw' hlife'
    have hold : ∃ c', n.channels[k]? = some c' ∧ (k ≠ i → ck = c') := by
      rw [htaken.lookup] at hck
      by_cases hk : k = i
      · exact ⟨c, hk ▸ htaken.channel, fun hne => absurd hk hne⟩
      · rw [if_neg hk] at hck
        exact ⟨ck, hck, fun _ => rfl⟩
    obtain ⟨c', hc', hck'⟩ := hold
    obtain ⟨ins, rows, hins, hrest, hscript⟩ := h.live k w s b c' hw hlife hc'
    rw [hin] at hins
    have hback : onInput w'.inputs i item.before (onInput w'.inputs i List.tail ins) = ins := by
      funext pos
      unfold onInput
      by_cases hpos : w'.inputs[pos]? = some i
      · rw [if_pos hpos, if_pos hpos, hins pos i hpos]
        exact (h.before_tail htaken.channel htaken.slot).symm
      · rw [if_neg hpos, if_neg hpos]
    refine ⟨onInput w'.inputs i List.tail ins, rows, ?_, by rw [hsame, hback]; exact hrest, ?_⟩
    · intro pos j hj
      rw [onInput_at hj, Function.update_apply, hins pos j hj]
      by_cases hji : j = i
      · rw [if_pos hji, if_pos hji, hji]
      · rw [if_neg hji, if_neg hji]
    · by_cases hk : k = i
      · subst hk
        rw [htaken.channel] at hc'
        cases hc'
        have hlook := htaken.lookup k
        rw [if_pos rfl, hck] at hlook
        cases hlook
        rw [Function.update_self, Channel.held_of_empty rfl, hscript, List.nil_append]
        cases item with
        | row r =>
            rw [Channel.held_of_row htaken.slot]
            rfl
        | endOfStream =>
            have hnil := h.closed k c htaken.channel (.inr htaken.slot)
            rw [hscript] at hnil
            rw [hnil, (List.append_eq_nil_iff.mp hnil).2]
            rfl
      · rw [Function.update_of_ne hk, hck' hk]
        exact hscript

/-- A row that is put into the slot was the first of the script. -/
theorem send (h : n.Follows script) (hw : n.workers[k]? = some w)
    (hlife : w.life = .working s waiting) (hwant : s.want = .send row after)
    (hc : n.channels[k]? = some c) (hslot : c.slot = none) (hopen : ¬ c.Closed) :
    ((n.setChannel k { c with slot := some (.row row) }).setLife k w
      (.working after false)).Follows script := by
  have hk : ∃ ins rows, (∀ pos i, w.inputs[pos]? = some i → ins pos = script i) ∧
      after.rest ins = .ok rows ∧ script k = row :: rows := by
    obtain ⟨ins, rows, hins, hrest, hscript⟩ := h.live k w s waiting c hw hlife hc
    rw [Stage.rest_of_want_send hwant] at hrest
    cases hafter : after.rest ins with
    | error d => rw [hafter] at hrest; cases hrest
    | ok rows' =>
        rw [hafter] at hrest
        cases hrest
        rw [Channel.held_of_empty hslot] at hscript
        exact ⟨ins, rows', hins, hafter, hscript⟩
  obtain ⟨ins, rows, hins, hrest, hscript⟩ := hk
  refine ⟨?_, ?_, ?_⟩
  · intro j cj hcj
    rw [channels_update hc] at hcj
    split at hcj
    · rename_i hj
      subst hj
      cases hcj
      exact ⟨rows, hscript⟩
    · exact h.slot j cj hcj
  · intro j cj hcj hclosed
    rw [channels_update hc] at hcj
    split at hcj
    · cases hcj
      rcases hclosed with hf | hs
      · exact absurd (.inl hf) hopen
      · cases hs
    · exact h.closed j cj hcj hclosed
  · intro j v s' b cj hv hworking hcj
    rw [workers_update hw] at hv
    rw [channels_update hc] at hcj
    split at hv
    · rename_i hj
      subst hj
      rw [if_pos rfl] at hcj
      cases hv
      cases hcj
      cases hworking
      exact ⟨ins, rows, hins, hrest, hscript⟩
    · rename_i hj
      rw [if_neg hj] at hcj
      exact h.live j v s' b cj hv hworking hcj

/-- A worker closes its output at the end of its script. -/
theorem close (h : n.Follows script) (hw : n.workers[k]? = some w)
    (hlife : w.life = .working s waiting) (hwant : s.want = .close)
    (hc : n.channels[k]? = some c) (hslot : c.slot = none) :
    ((n.setChannel k { c with slot := some .endOfStream }).setLife k w
      (.leaving .ok w.inputs true)).Follows script := by
  have hk : script k = [] := by
    obtain ⟨ins, rows, -, hrest, hscript⟩ := h.live k w s waiting c hw hlife hc
    rw [Stage.rest_of_want_close hwant] at hrest
    cases hrest
    rw [hscript, Channel.held_of_empty hslot]
    rfl
  refine ⟨?_, ?_, ?_⟩
  · intro j cj hcj
    rw [channels_update hc] at hcj
    split at hcj
    · rename_i hj
      subst hj
      cases hcj
      exact ⟨[], hk⟩
    · exact h.slot j cj hcj
  · intro j cj hcj hclosed
    rw [channels_update hc] at hcj
    split at hcj
    · rename_i hj
      rw [hj]
      exact hk
    · exact h.closed j cj hcj hclosed
  · intro j v s' b cj hv hworking hcj
    rw [workers_update hw] at hv
    rw [channels_update hc] at hcj
    split at hv
    · cases hv
      cases hworking
    · rename_i hj
      rw [if_neg hj] at hcj
      exact h.live j v s' b cj hv hworking hcj

/-- **After every step the network still follows a script**, also after one by which an operator
ends before its end. -/
theorem step (h : n.Follows script) (hs : n.Sound output) (hw : n.workers[k]? = some w)
    (hstep : Step n k w n') : ∃ script', n'.Follows script' := by
  cases hstep with
  | wait hlife _ => exact ⟨_, h.of_retains (.of_waiting hw hlife true)⟩
  | halt _ _ =>
      exact ⟨_, h.of_retains (.of_ended hw (by simp [Life.ended?]) rfl fun i c' hc' =>
        ⟨c', hc', id, rfl⟩)⟩
  | receive hlife hwant hi hc hslot =>
      exact ⟨_, h.taken (hs.taken_by_worker hw hlife hwant hi hc hslot)⟩
  | send hlife hwant hc _ hslot =>
      exact ⟨_, h.send hw hlife hwant hc hslot ((hs.sink k w _ hw hc).not_closed hlife)⟩
  | close hlife hwant hc _ hslot => exact ⟨_, h.close hw hlife hwant hc hslot⟩
  | @dropSource o sources sink i c hlife hi hc =>
      have hclosed : c.dropConsumer.Closed ↔ c.Closed := Iff.rfl
      exact ⟨_, h.of_retains (.of_ended hw (by simp [Life.ended?]) rfl
        (channels_of_dropped hc hclosed rfl k w _))⟩
  | @dropSink o sources c hlife hc =>
      have hclosed : c.dropProducer.Closed ↔ c.Closed := Iff.rfl
      exact ⟨_, h.of_retains (.of_ended hw (by simp [Life.ended?]) rfl
        (channels_of_dropped hc hclosed rfl k w _))⟩
  | @finish o hlife =>
      obtain ⟨b, hb⟩ := finish_eq n k w o
      rw [hb]
      exact ⟨_, h.of_retains (.of_ended hw (by simp [Life.ended?]) rfl fun i c' hc' =>
        ⟨c', hc', id, rfl⟩)⟩

end Follows

/-! ### Before the first step -/

section Start

variable {p : Plan} {cat : Catalog} {a : Assembly}

/-- Each channel of a plan without crashes begins with the rows of its node as its script. -/
theorem follows_ofAssembly (ha : p.assemble cat = .ok a) (hfine : ¬ p.Crashes cat) :
    ∃ script, (ofAssembly a).Follows script := by
  obtain ⟨root, schemas, t, hroot, hl, ht, rfl, -⟩ := Assembly.layout_of_assemble ha
  have hyields : ∀ k : Nat, ∃ rows, ∀ u : Task, a.tasks[k]? = some u → p.Yields cat u.node rows := by
    intro k
    cases hu : a.tasks[k]? with
    | none => exact ⟨[], fun u hu' => by cases hu'⟩
    | some u =>
        rcases yields_or_breaks hl hu with ⟨rows, hy⟩ | ⟨d, hd⟩
        · exact ⟨rows, fun u' hu' => by cases hu'; exact hy⟩
        · exact absurd ⟨_, d, hroot, hd.of_reaches (hl.reaches ht _ k u rfl hu)⟩ hfine
  choose script hscript using hyields
  refine ⟨script, ?_, ?_, ?_⟩
  · intro i c hc
    obtain rfl := channels_ofAssembly hc
    exact ⟨script i, rfl⟩
  · intro i c hc hclosed
    obtain rfl := channels_ofAssembly hc
    exact absurd hclosed Channel.not_closed_new
  · intro k w s waiting c hw hlife hc
    obtain rfl := channels_ofAssembly hc
    obtain ⟨u, hu, rfl⟩ := workers_ofAssembly hw
    cases hlife
    obtain ⟨op, ops, schema, hnode, hcount, -, -, hop⟩ := (hl.laid k u hu).operation
    obtain ⟨ins, hfeeds, hrest⟩ :=
      Assembly.rest_of_yields hnode hcount (Assembly.realizes_of_operator hop) (hscript k u hu)
    refine ⟨ins, script k, ?_, hrest, rfl⟩
    intro pos i hi
    have hin := (hl.laid k u hu).inputs
    obtain ⟨hpos, hival⟩ := List.getElem?_eq_some_iff.mp hi
    have hpos' : pos < (p.inputs u.node).length := hin.length_eq.symm ▸ hpos
    obtain ⟨v, hv, hvn⟩ := hin.get hpos' hpos
    have hival' : u.inputs.get ⟨pos, hpos⟩ = i := hival
    rw [hival'] at hv
    have hfed := hfeeds pos _ (List.getElem?_eq_getElem hpos')
    have hown := hscript i v hv
    rw [hvn] at hown
    exact hfed.unique hown

end Start

end Network

end StreamQuery
