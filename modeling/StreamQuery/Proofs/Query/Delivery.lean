/-
What a network will still deliver.

`Network.Delivers` gives the rows that will still come through a channel when nothing
goes wrong: those in the slot, and behind them the rest of the worker that writes it,
for whatever its own inputs will still deliver.  It looks only at where the network
stands, so it knows nothing of schedules; and no step changes it at the answer, except
that the caller takes rows off its front.  That is the whole reason why the order of
steps cannot be seen in an answer.

The relation is followed in both directions.  Backwards it holds across every step,
also those by which a worker fails: whatever the network still delivers afterwards, it
would have delivered before.  Forwards it holds as long as no operator ends before its
end.
-/
import StreamQuery.Proofs.Query.Step

namespace StreamQuery

namespace Network

/-- The rows that will still come through a channel. -/
inductive Delivers (n : Network) : Nat → List Row → Prop where
  | closed {i : Nat} {c : Channel} (hc : n.channels[i]? = some c) (hclosed : c.Closed) :
      Delivers n i []
  | live {k : Nat} {w : Worker} {s : Stage} {waiting : Bool} {c : Channel}
      {ins : Nat → List Row} {rows : List Row} (hw : n.workers[k]? = some w)
      (hlife : w.life = .working s waiting) (hc : n.channels[k]? = some c)
      (hins : ∀ pos i, w.inputs[pos]? = some i → Delivers n i (ins pos))
      (hrest : s.rest ins = .ok rows) : Delivers n k (c.held ++ rows)

variable {n n' : Network} {output i j k : Nat} {w : Worker} {s after : Stage} {c : Channel}
  {row : Row} {item : Item} {rows : List Row}

/-! ### Steps that move no row -/

/-- What `n` still has: every channel and every worker at work of `n'`, in the same state. -/
structure Retains (n n' : Network) : Prop where
  channels : ∀ (i : Nat) (c' : Channel), n'.channels[i]? = some c' →
    ∃ c, n.channels[i]? = some c ∧ (c'.Closed → c.Closed) ∧ c'.held = c.held
  workers : ∀ (k : Nat) (w' : Worker) (s : Stage) (b : Bool), n'.workers[k]? = some w' →
    w'.life = .working s b →
    ∃ w b', n.workers[k]? = some w ∧ w.inputs = w'.inputs ∧ w.life = .working s b'

theorem Delivers.of_retains (h : n'.Delivers j rows) (hr : n.Retains n') : n.Delivers j rows := by
  induction h with
  | closed hc hclosed =>
      obtain ⟨c, hc', hcl, -⟩ := hr.channels _ _ hc
      exact .closed hc' (hcl hclosed)
  | live hw hlife hc hins hrest ih =>
      obtain ⟨c, hc', -, hheld⟩ := hr.channels _ _ hc
      obtain ⟨w, b, hw', hin, hlife'⟩ := hr.workers _ _ _ _ hw hlife
      rw [hheld]
      refine .live hw' hlife' hc' (fun pos i hi => ih pos i ?_) hrest
      rw [← hin]
      exact hi

/-- Whether a worker waits plays no part. -/
theorem Retains.of_waiting (hw : n.workers[k]? = some w) {waiting : Bool}
    (hlife : w.life = .working s waiting) (b : Bool) :
    n.Retains (n.setLife k w (.working s b)) where
  channels := fun _ c' hc' => ⟨c', hc', id, rfl⟩
  workers := by
    intro j v s' b' hv hworking
    rw [workers_setLife hw] at hv
    split at hv
    · rename_i hj
      subst hj
      cases hv
      cases hworking
      exact ⟨w, waiting, hw, rfl, hlife⟩
    · exact ⟨v, b', hv, rfl, hworking⟩

/-- A worker that has ended took nothing away from the others. -/
theorem Retains.of_ended (hw : n.workers[k]? = some w) {life : Life} (hlife : life.ended? ≠ none)
    (hworkers : n'.workers = n.workers.set k { w with life })
    (hchannels : ∀ (i : Nat) (c' : Channel), n'.channels[i]? = some c' →
      ∃ c, n.channels[i]? = some c ∧ (c'.Closed → c.Closed) ∧ c'.held = c.held) :
    n.Retains n' where
  channels := hchannels
  workers := by
    intro j v _ b hv hworking
    have hv' : (n.setLife k w life).workers[j]? = some v := by
      rw [← hv, hworkers]
      rfl
    rw [workers_setLife hw] at hv'
    split at hv'
    · cases hv'
      exact absurd (by simp [show life = .working _ b from hworking, Life.ended?]) hlife
    · exact ⟨v, b, hv', rfl, hworking⟩

/-- A worker that had ended gave nothing to the others. -/
theorem Retains.from_ended (hw : n.workers[k]? = some w) (hended : w.life.ended? ≠ none)
    {life : Life} (hworkers : n'.workers = n.workers.set k { w with life })
    (hchannels : ∀ (i : Nat) (c : Channel), n.channels[i]? = some c →
      ∃ c', n'.channels[i]? = some c' ∧ (c.Closed → c'.Closed) ∧ c.held = c'.held) :
    n'.Retains n where
  channels := hchannels
  workers := by
    intro j v s b hv hworking
    have hj : j ≠ k := by
      rintro rfl
      rw [hw] at hv
      cases hv
      exact hended (by rw [hworking]; rfl)
    refine ⟨v, b, ?_, rfl, hworking⟩
    rw [hworkers, List.getElem?_set_ne (Ne.symm hj)]
    exact hv

/-- Only a half of a channel was let go. -/
theorem channels_of_dropped (hc : n.channels[i]? = some c) {c' : Channel}
    (hclosed : c'.Closed ↔ c.Closed) (hheld : c'.held = c.held) (k : Nat) (w : Worker)
    (life : Life) (j : Nat) (cj : Channel)
    (hcj : ((n.setChannel i c').setLife k w life).channels[j]? = some cj) :
    ∃ c, n.channels[j]? = some c ∧ (cj.Closed → c.Closed) ∧ cj.held = c.held := by
  rw [channels_update hc] at hcj
  split at hcj
  · rename_i hji
    subst hji
    cases hcj
    exact ⟨c, hc, hclosed.mp, hheld⟩
  · exact ⟨cj, hcj, id, rfl⟩

theorem channels_to_dropped (hc : n.channels[i]? = some c) {c' : Channel}
    (hclosed : c'.Closed ↔ c.Closed) (hheld : c'.held = c.held) (k : Nat) (w : Worker)
    (life : Life) (j : Nat) (cj : Channel) (hcj : n.channels[j]? = some cj) :
    ∃ c, ((n.setChannel i c').setLife k w life).channels[j]? = some c ∧
      (cj.Closed → c.Closed) ∧ cj.held = c.held := by
  rw [channels_update hc]
  split
  · rename_i hji
    subst hji
    rw [hc] at hcj
    cases hcj
    exact ⟨c', rfl, hclosed.mpr, hheld.symm⟩
  · exact ⟨cj, hcj, id, rfl⟩

/-! ### Steps that move a row -/

/-- A row that is put into the slot was the first of the rest. -/
theorem delivers_of_send (hw : n.workers[k]? = some w) {waiting : Bool}
    (hlife : w.life = .working s waiting) (hwant : s.want = .send row after)
    (hc : n.channels[k]? = some c) (hslot : c.slot = none)
    (h : ((n.setChannel k { c with slot := some (.row row) }).setLife k w
      (.working after false)).Delivers j rows) : n.Delivers j rows := by
  induction h with
  | closed hcj hclosed =>
      rw [channels_update hc] at hcj
      split at hcj
      · rename_i hj
        subst hj
        cases hcj
        refine .closed hc ?_
        rcases hclosed with hf | hs
        · exact .inl hf
        · simp at hs
      · exact .closed hcj hclosed
  | live hv hworking hcj hins hrest ih =>
      rw [workers_update hw] at hv
      rw [channels_update hc] at hcj
      split at hv
      · rename_i hj
        subst hj
        rw [if_pos rfl] at hcj
        cases hv
        cases hcj
        cases hworking
        rw [Channel.held_of_row rfl]
        have hall := Delivers.live hw hlife hc ih
          (by rw [Stage.rest_of_want_send hwant, hrest]; rfl)
        rw [Channel.held_of_empty hslot] at hall
        exact hall
      · rename_i hj
        rw [if_neg hj] at hcj
        exact .live hv hworking hcj ih hrest

theorem delivers_send (hw : n.workers[k]? = some w) {waiting : Bool}
    (hlife : w.life = .working s waiting) (hwant : s.want = .send row after)
    (hc : n.channels[k]? = some c) (hslot : c.slot = none) (hopen : ¬ c.Closed)
    (h : n.Delivers j rows) :
    ((n.setChannel k { c with slot := some (.row row) }).setLife k w
      (.working after false)).Delivers j rows := by
  induction h with
  | @closed i ci hci hclosed =>
      have hne : i ≠ k := by
        rintro rfl
        rw [hc] at hci
        cases hci
        exact hopen hclosed
      refine .closed ?_ hclosed
      rw [channels_update hc, if_neg hne]
      exact hci
  | @live l v s' b cl ins rest hv hworking hcl hins hrest ih =>
      by_cases hl : l = k
      · subst hl
        rw [hw] at hv
        rw [hc] at hcl
        cases hv
        cases hcl
        rw [hlife] at hworking
        cases hworking
        rw [Stage.rest_of_want_send hwant] at hrest
        cases hafter : after.rest ins with
        | error d => rw [hafter] at hrest; cases hrest
        | ok rest' =>
            rw [hafter] at hrest
            cases hrest
            rw [Channel.held_of_empty hslot]
            refine .live ((workers_update hw _ _ _ _).trans (if_pos rfl)) rfl
              ((channels_update hc _ _ _ _ _).trans (if_pos rfl)) ih hafter
      · refine .live ?_ hworking ?_ ih hrest
        · rw [workers_update hw, if_neg hl]
          exact hv
        · rw [channels_update hc, if_neg hl]
          exact hcl

/-- A worker that closes its output had nothing left, and neither had its inputs. -/
theorem delivers_of_close (h : n.Sound output) (hw : n.workers[k]? = some w) {waiting : Bool}
    (hlife : w.life = .working s waiting) (hwant : s.want = .close)
    (hc : n.channels[k]? = some c) (hslot : c.slot = none)
    (hd : ((n.setChannel k { c with slot := some .endOfStream }).setLife k w
      (.leaving .ok w.inputs true)).Delivers j rows) : n.Delivers j rows := by
  have hdry : ∀ (pos i : Nat), w.inputs[pos]? = some i → n.Delivers i [] := by
    intro pos i hi
    obtain ⟨ci, hci⟩ := h.channel_of_input hw (List.mem_of_getElem? hi)
    refine .closed hci (.inl ?_)
    have hapt := h.apt k w hw
    rw [hlife] at hapt
    rw [(h.source k w pos i ci hw hi hci).working s waiting hlife]
    exact Stage.exhausted_of_want_close hwant hapt.1 (List.getElem?_eq_some_iff.mp hi).1
  have hempty : n.Delivers k [] := by
    have hlive := Delivers.live hw hlife hc hdry (Stage.rest_of_want_close hwant _)
    rw [Channel.held_of_empty hslot] at hlive
    exact hlive
  induction hd with
  | closed hcj hclosed =>
      rw [channels_update hc] at hcj
      split at hcj
      · rename_i hj
        subst hj
        exact hempty
      · exact .closed hcj hclosed
  | live hv hworking hcj hins hrest ih =>
      rw [workers_update hw] at hv
      rw [channels_update hc] at hcj
      split at hv
      · cases hv
        simp at hworking
      · rename_i hj
        rw [if_neg hj] at hcj
        exact .live hv hworking hcj ih hrest

theorem delivers_close (hw : n.workers[k]? = some w) {waiting : Bool}
    (hlife : w.life = .working s waiting) (hwant : s.want = .close)
    (hc : n.channels[k]? = some c) (hslot : c.slot = none) (h : n.Delivers j rows) :
    ((n.setChannel k { c with slot := some .endOfStream }).setLife k w
      (.leaving .ok w.inputs true)).Delivers j rows := by
  have hempty : ((n.setChannel k { c with slot := some .endOfStream }).setLife k w
      (.leaving .ok w.inputs true)).Delivers k [] :=
    .closed ((channels_update hc _ _ _ _ _).trans (if_pos rfl)) (.inr rfl)
  induction h with
  | @closed i ci hci hclosed =>
      by_cases hi : i = k
      · subst hi
        exact hempty
      · refine .closed ?_ hclosed
        rw [channels_update hc, if_neg hi]
        exact hci
  | @live l v s' b cl ins rest hv hworking hcl hins hrest ih =>
      by_cases hl : l = k
      · subst hl
        rw [hw] at hv
        rw [hc] at hcl
        cases hv
        cases hcl
        rw [hlife] at hworking
        cases hworking
        rw [Stage.rest_of_want_close hwant] at hrest
        cases hrest
        rw [Channel.held_of_empty hslot]
        exact hempty
      · refine .live ?_ hworking ?_ ih hrest
        · rw [workers_update hw, if_neg hl]
          exact hv
        · rw [channels_update hc, if_neg hl]
          exact hcl

/-! ### Taking an item

The reader of a channel takes an item out of its slot, be it a worker or the caller.  Everybody
else stays as he is, and the reader expects of the channel what is left behind the item. -/

/-- What inputs deliver, changed where a channel is read. -/
def onInput (inputs : List Nat) (i : Nat) (f : List Row → List Row) (ins : Nat → List Row)
    (pos : Nat) : List Row :=
  if inputs[pos]? = some i then f (ins pos) else ins pos

theorem onInput_at {inputs : List Nat} {pos : Nat} (h : inputs[pos]? = some j)
    (f : List Row → List Row) (ins : Nat → List Row) :
    onInput inputs i f ins pos = if j = i then f (ins pos) else ins pos := by
  simp [onInput, h]

/-- An item was taken out of channel `i`. -/
structure Taken (n n' : Network) (i : Nat) (c : Channel) (item : Item) : Prop where
  channel : n.channels[i]? = some c
  slot : c.slot = some item
  channels : n'.channels = n.channels.set i { c with slot := none, finished := item.isEnd }
  /-- Each worker at work sends after the item came what it would have sent when it comes. -/
  back : ∀ (j : Nat) (v' : Worker) (s' : Stage) (b' : Bool), n'.workers[j]? = some v' →
    v'.life = .working s' b' → ∃ v s b, n.workers[j]? = some v ∧ v.inputs = v'.inputs ∧
      v.life = .working s b ∧ ∀ ins, s'.rest ins = s.rest (onInput v'.inputs i item.before ins)
  forth : ∀ (j : Nat) (v : Worker) (s : Stage) (b : Bool), n.workers[j]? = some v →
    v.life = .working s b → ∃ v' s' b', n'.workers[j]? = some v' ∧ v'.inputs = v.inputs ∧
      v'.life = .working s' b' ∧ ∀ ins, s'.rest ins = s.rest (onInput v.inputs i item.before ins)

theorem Taken.lookup (h : n.Taken n' i c item) (j : Nat) : n'.channels[j]?
    = if j = i then some { c with slot := none, finished := item.isEnd } else n.channels[j]? := by
  have hj := channels_setChannel h.channel { c with slot := none, finished := item.isEnd } j
  rw [← hj, h.channels]
  rfl

/-- A channel delivered the item before what it delivers afterwards. -/
theorem Taken.delivers_before (h : n.Taken n' i c item) (hd : n'.Delivers j rows) :
    n.Delivers j (if j = i then item.before rows else rows) := by
  have hclosed : item = .endOfStream → n.Delivers i [] := by
    rintro rfl
    exact .closed h.channel (.inr h.slot)
  induction hd with
  | @closed l cl hcl hcl' =>
      rw [h.lookup] at hcl
      by_cases hl : l = i
      · subst hl
        rw [if_pos rfl] at hcl ⊢
        cases hcl
        cases item with
        | row r => rcases hcl' with hf | hs <;> cases ‹_ = _›
        | endOfStream => exact hclosed rfl
      · rw [if_neg hl] at hcl ⊢
        exact .closed hcl hcl'
  | @live l v' s' b' cl ins rest hv hlife hcl hins hrest ih =>
      obtain ⟨v, s, b, hv', hin, hlife', hsame⟩ := h.back l v' s' b' hv hlife
      rw [hsame] at hrest
      have hins' : ∀ pos m, v.inputs[pos]? = some m →
          n.Delivers m (onInput v'.inputs i item.before ins pos) := by
        intro pos m hm
        rw [hin] at hm
        rw [onInput_at hm]
        exact ih pos m hm
      rw [h.lookup] at hcl
      by_cases hl : l = i
      · subst hl
        rw [if_pos rfl] at hcl ⊢
        cases hcl
        rw [Channel.held_of_empty rfl, List.nil_append]
        cases item with
        | row r =>
            have hlive := Delivers.live hv' hlife' h.channel hins' hrest
            rw [Channel.held_of_row h.slot] at hlive
            exact hlive
        | endOfStream => exact hclosed rfl
      · rw [if_neg hl] at hcl ⊢
        exact .live hv' hlife' hcl hins' hrest

/-- The item in the slot is the first that comes. -/
theorem Sound.before_tail (h : n.Sound output) (hc : n.channels[i]? = some c)
    (hslot : c.slot = some item) (hd : n.Delivers i rows) : rows = item.before rows.tail := by
  cases hd with
  | closed hc' hclosed =>
      rw [hc] at hc'
      cases hc'
      rcases hclosed with hf | hs
      · rw [h.spent i _ hc hf] at hslot
        simp at hslot
      · rw [hslot] at hs
        cases hs
        rfl
  | live hw hlife hc' hins hrest =>
      rw [hc] at hc'
      cases hc'
      cases item with
      | row r =>
          rw [Channel.held_of_row hslot]
          rfl
      | endOfStream => exact absurd (.inr hslot) ((h.sink i _ _ hw hc).not_closed hlife)

/-- A channel delivers afterwards what it delivered, without the first row. -/
theorem Taken.delivers_after (h : n.Taken n' i c item) (hs : n.Sound output)
    (hd : n.Delivers j rows) : n'.Delivers j (if j = i then rows.tail else rows) := by
  induction hd with
  | @closed l cl hcl hclosed =>
      have hl := h.lookup l
      by_cases hli : l = i
      · subst hli
        rw [if_pos rfl] at hl ⊢
        rw [h.channel] at hcl
        cases hcl
        refine .closed hl ?_
        exact (Channel.closed_take (hs.spent l _ h.channel) h.slot).mpr hclosed
      · rw [if_neg hli] at hl ⊢
        rw [hcl] at hl
        exact .closed hl hclosed
  | @live l v s b cl ins rest hv hlife hcl hins hrest ih =>
      obtain ⟨v', s', b', hv', hin, hlife', hsame⟩ := h.forth l v s b hv hlife
      have hback : onInput v.inputs i item.before (onInput v.inputs i List.tail ins) = ins := by
        funext pos
        unfold onInput
        by_cases hpos : v.inputs[pos]? = some i
        · rw [if_pos hpos, if_pos hpos]
          exact (hs.before_tail h.channel h.slot (hins pos i hpos)).symm
        · rw [if_neg hpos, if_neg hpos]
      have hrest' : s'.rest (onInput v.inputs i List.tail ins) = .ok rest := by
        rw [hsame, hback]
        exact hrest
      have hins' : ∀ pos m, v'.inputs[pos]? = some m →
          n'.Delivers m (onInput v.inputs i List.tail ins pos) := by
        intro pos m hm
        rw [hin] at hm
        rw [onInput_at hm]
        exact ih pos m hm
      have hl := h.lookup l
      by_cases hli : l = i
      · subst hli
        rw [if_pos rfl] at hl ⊢
        rw [h.channel] at hcl
        cases hcl
        have hlive := Delivers.live hv' hlife' hl hins' hrest'
        rw [Channel.held_of_empty rfl] at hlive
        cases item with
        | row r =>
            rw [Channel.held_of_row h.slot]
            exact hlive
        | endOfStream =>
            exact absurd (.inr h.slot) ((hs.sink l v _ hv h.channel).not_closed hlife)
      · rw [if_neg hli] at hl ⊢
        rw [hcl] at hl
        exact .live hv' hlife' hl hins' hrest'

/-- A worker that receives takes an item. -/
theorem Sound.taken_by_worker (h : n.Sound output) (hw : n.workers[k]? = some w) {waiting : Bool}
    {input : Nat} (hlife : w.life = .working s waiting) (hwant : s.want = .receive input)
    (hi : w.inputs[input]? = some i) (hc : n.channels[i]? = some c)
    (hslot : c.slot = some item) :
    n.Taken ((n.setChannel i { c with slot := none, finished := item.isEnd }).setLife k w
      (.working (s.accept item) false)) i c item := by
  have hreader : ∀ ins, (s.accept item).rest ins = s.rest (onInput w.inputs i item.before ins) := by
    intro ins
    rw [Stage.rest_accept hwant]
    congr 1
    funext pos
    unfold onInput
    by_cases hpos : pos = input
    · subst hpos
      rw [Function.update_self, if_pos hi]
    · have hne : w.inputs[pos]? ≠ some i := fun hpi =>
        hpos (h.reader k w pos k w input i hw hpi hw hi).2
      rw [Function.update_of_ne hpos, if_neg hne]
  have hother : ∀ {j : Nat} {v : Worker} (_ : n.workers[j]? = some v) (_ : j ≠ k)
      (s : Stage) (ins : Nat → List Row),
      s.rest ins = s.rest (onInput v.inputs i item.before ins) := by
    intro j v hv hj s ins
    congr 1
    funext pos
    have hne : v.inputs[pos]? ≠ some i := fun hpi =>
      hj (h.reader j v pos k w input i hv hpi hw hi).1
    unfold onInput
    rw [if_neg hne]
  refine ⟨hc, hslot, rfl, ?_, ?_⟩
  · intro j v' s' b' hv' hlife'
    rw [workers_update hw] at hv'
    split at hv'
    · rename_i hj
      subst hj
      cases hv'
      cases hlife'
      exact ⟨w, s, waiting, hw, rfl, hlife, hreader⟩
    · rename_i hj
      exact ⟨v', s', b', hv', rfl, hlife', hother hv' hj s'⟩
  · intro j v s' b hv hlife'
    rw [workers_update hw]
    by_cases hj : j = k
    · subst hj
      rw [hw] at hv
      cases hv
      rw [hlife] at hlife'
      cases hlife'
      rw [if_pos rfl]
      exact ⟨_, _, _, rfl, rfl, rfl, hreader⟩
    · rw [if_neg hj]
      exact ⟨v, s', b, hv, rfl, hlife', hother hv hj s'⟩

/-- The caller takes an item out of the answer. -/
theorem Sound.taken_by_caller (h : n.Sound output) (hc : n.channels[output]? = some c)
    (hslot : c.slot = some item) :
    n.Taken (n.setChannel output { c with slot := none, finished := item.isEnd })
      output c item := by
  have hnobody : ∀ {j : Nat} {v : Worker} (_ : n.workers[j]? = some v) (s : Stage)
      (ins : Nat → List Row), s.rest ins = s.rest (onInput v.inputs output item.before ins) := by
    intro j v hv s ins
    congr 1
    funext pos
    have hne : v.inputs[pos]? ≠ some output := fun hpi =>
      h.unread j v hv (List.mem_of_getElem? hpi)
    unfold onInput
    rw [if_neg hne]
  exact ⟨hc, hslot, rfl,
    fun j v s b hv hlife => ⟨v, s, b, hv, rfl, hlife, hnobody hv s⟩,
    fun j v s b hv hlife => ⟨v, s, b, hv, rfl, hlife, hnobody hv s⟩⟩

/-- What the caller has taken and what still comes is what came before. -/
theorem Sound.before_caller_took (h : n.Sound output) (hc : n.channels[output]? = some c)
    (hslot : c.slot = some item) (hd : (n.setChannel output
      { c with slot := none, finished := item.isEnd }).Delivers output rows) :
    n.Delivers output (item.before rows) := by
  have hbefore := (h.taken_by_caller hc hslot).delivers_before hd
  rwa [if_pos rfl] at hbefore

theorem Sound.after_caller_took (h : n.Sound output) (hc : n.channels[output]? = some c)
    (hslot : c.slot = some item) (hd : n.Delivers output rows) : (n.setChannel output
      { c with slot := none, finished := item.isEnd }).Delivers output rows.tail := by
  have hafter := (h.taken_by_caller hc hslot).delivers_after h hd
  rwa [if_pos rfl] at hafter

/-! ### Whole steps -/

/-- **Whatever the answer still delivers after a step, it would have delivered before.** -/
theorem Step.delivers_before (hstep : Step n k w n') (h : n.Sound output)
    (hw : n.workers[k]? = some w) (hd : n'.Delivers output rows) : n.Delivers output rows := by
  cases hstep with
  | wait hlife _ => exact hd.of_retains (.of_waiting hw hlife true)
  | halt _ _ =>
      exact hd.of_retains (.of_ended hw (by simp [Life.ended?]) rfl fun i c' hc' =>
        ⟨c', hc', id, rfl⟩)
  | receive hlife hwant hi hc hslot =>
      have hbefore := (h.taken_by_worker hw hlife hwant hi hc hslot).delivers_before hd
      rwa [if_neg] at hbefore
      rintro rfl
      exact h.unread k w hw (List.mem_of_getElem? hi)
  | send hlife hwant hc _ hslot => exact delivers_of_send hw hlife hwant hc hslot hd
  | close hlife hwant hc _ hslot => exact delivers_of_close h hw hlife hwant hc hslot hd
  | @dropSource o sources sink i c hlife hi hc =>
      have hclosed : c.dropConsumer.Closed ↔ c.Closed := Iff.rfl
      exact hd.of_retains (.of_ended hw (by simp [Life.ended?]) rfl
        (channels_of_dropped hc hclosed rfl k w _))
  | @dropSink o sources c hlife hc =>
      have hclosed : c.dropProducer.Closed ↔ c.Closed := Iff.rfl
      exact hd.of_retains (.of_ended hw (by simp [Life.ended?]) rfl
        (channels_of_dropped hc hclosed rfl k w _))
  | @finish o hlife =>
      obtain ⟨b, hb⟩ := finish_eq n k w o
      rw [hb] at hd
      exact hd.of_retains (.of_ended hw (by simp [Life.ended?]) rfl fun i c' hc' =>
        ⟨c', hc', id, rfl⟩)

/-- A step by which no operator halts takes nothing away from the answer. -/
theorem Step.delivers_after (hstep : Step n k w n') (h : n.Sound output)
    (hw : n.workers[k]? = some w)
    (hgoes : ∀ s waiting o, w.life = .working s waiting → ¬ n.Halts k w s o)
    (hd : n.Delivers output rows) : n'.Delivers output rows := by
  have hk : k < n.workers.length := (List.getElem?_eq_some_iff.mp hw).1
  cases hstep with
  | @wait s hlife _ =>
      refine hd.of_retains ⟨fun _ c' hc' => ⟨c', hc', id, rfl⟩, ?_⟩
      intro j v s' b hv hworking
      rw [workers_setLife hw]
      split
      · rename_i hj
        subst hj
        rw [hw] at hv
        cases hv
        rw [hlife] at hworking
        cases hworking
        exact ⟨_, _, rfl, rfl, rfl⟩
      · exact ⟨v, b, hv, rfl, hworking⟩
  | halt hlife hwhy => exact absurd hwhy (hgoes _ _ _ hlife)
  | receive hlife hwant hi hc hslot =>
      have hafter := (h.taken_by_worker hw hlife hwant hi hc hslot).delivers_after h hd
      rwa [if_neg] at hafter
      rintro rfl
      exact h.unread k w hw (List.mem_of_getElem? hi)
  | send hlife hwant hc _ hslot =>
      exact delivers_send hw hlife hwant hc hslot ((h.sink k w _ hw hc).not_closed hlife) hd
  | close hlife hwant hc _ hslot => exact delivers_close hw hlife hwant hc hslot hd
  | @dropSource o sources sink i c hlife hi hc =>
      have hclosed : c.dropConsumer.Closed ↔ c.Closed := Iff.rfl
      exact hd.of_retains (.from_ended hw (by simp [hlife, Life.ended?]) rfl
        (channels_to_dropped hc hclosed rfl k w _))
  | @dropSink o sources c hlife hc =>
      have hclosed : c.dropProducer.Closed ↔ c.Closed := Iff.rfl
      exact hd.of_retains (.from_ended hw (by simp [hlife, Life.ended?]) rfl
        (channels_to_dropped hc hclosed rfl k w _))
  | @finish o hlife =>
      obtain ⟨b, hb⟩ := finish_eq n k w o
      rw [hb]
      exact hd.of_retains (.from_ended hw (by simp [hlife, Life.ended?]) rfl fun i c hc =>
        ⟨c, hc, id, rfl⟩)

end Network

end StreamQuery
