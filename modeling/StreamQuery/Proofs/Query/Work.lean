/-
Every step of a worker leaves less work.

`Network.work` bounds how many steps the workers can still make.  Its heart is
`Network.coming`: how many items may still come through a channel, those in the slot
and those that its writer may still send.  No step makes that number larger anywhere: a
send moves an item from the writer to the slot, a receipt takes it away, and what a
reader may send depends only on what may come to it.  That goes by induction on the
number of the channel, because the inputs of a worker have smaller numbers.

Each worker then has fewer steps left than before it moved, and nobody has more.
-/
import StreamQuery.Proofs.Query.Step

namespace StreamQuery

namespace Network

/-! ### What a stage may still send -/

section Yield

variable {a a' b b' input : Nat} {s after : Stage} {row : Row}

theorem yield_mono (ha : a ≤ a') (hb : b ≤ b') (s : Stage) : yield a b s ≤ yield a' b' s := by
  cases s with
  | values rows => exact Nat.le_refl _
  | filter condition row => simp only [yield]; omega
  | project exprs row => simp only [yield]; omega
  | buffer condition right =>
      simp only [yield]
      exact Nat.mul_le_mul (by omega) ha
  | pair condition right left rest =>
      simp only [yield]
      have := Nat.mul_le_mul_left right.length ha
      omega
  | relay second row => simp only [yield]; omega
  | closing => exact Nat.le_refl _

theorem receive_input (h : s.want = .receive input) : input = 0 ∨ input = 1 := by
  cases s with
  | values items => exact absurd h Stage.want_values_ne_receive
  | filter condition row =>
      cases row with
      | none => cases h; exact .inl rfl
      | some r => simp only [Stage.want] at h; split at h <;> cases h; exact .inl rfl
  | project exprs row =>
      cases row with
      | none => cases h; exact .inl rfl
      | some r => simp only [Stage.want] at h; split at h <;> cases h
  | buffer condition right => cases h; exact .inr rfl
  | pair condition right left rest =>
      exact .inl (Stage.through_of_nextPair_receive (by simpa [Stage.want] using h) []).1
  | relay second row =>
      cases row with
      | none => cases second <;> cases h <;> simp
      | some r => simp [Stage.want] at h
  | closing => simp [Stage.want] at h

/-- A stage that has received an item may send no more than before. -/
theorem yield_accept (h : s.want = .receive input) (ha : a ≤ a') (hb : b ≤ b')
    (hleft : input = 0 → a < a') (hright : input = 1 → b < b') (item : Item) :
    yield a b (s.accept item) ≤ yield a' b' s := by
  cases s with
  | values items => exact absurd h Stage.want_values_ne_receive
  | filter condition row =>
      have hlt : a < a' := by
        refine hleft ?_
        cases row with
        | none => cases h; rfl
        | some r => simp only [Stage.want] at h; split at h <;> cases h; rfl
      cases item with
      | row r => simp only [Stage.accept, yield, Option.isSome_some, if_true]; omega
      | endOfStream => exact Nat.zero_le _
  | project exprs row =>
      cases row with
      | none =>
          cases h
          have hlt := hleft rfl
          cases item with
          | row r => simp only [Stage.accept, yield, Option.isSome_some, if_true]; omega
          | endOfStream => exact Nat.zero_le _
      | some r => simp only [Stage.want] at h; split at h <;> cases h
  | buffer condition right =>
      cases h
      have hlt := hright rfl
      cases item with
      | row r =>
          simp only [Stage.accept, yield, List.length_cons]
          exact Nat.mul_le_mul (by omega) ha
      | endOfStream =>
          simp only [Stage.accept, yield, List.length_nil, List.length_reverse, Nat.zero_add]
          exact Nat.mul_le_mul (by omega) ha
  | pair condition right left rest =>
      obtain ⟨rfl, -⟩ := Stage.through_of_nextPair_receive (by simpa [Stage.want] using h) []
      have hlt := hleft rfl
      cases item with
      | row r =>
          simp only [Stage.accept, yield]
          have hmul := Nat.mul_le_mul_left right.length hlt
          rw [Nat.succ_eq_add_one, Nat.mul_add, Nat.mul_one] at hmul
          omega
      | endOfStream => exact Nat.zero_le _
  | relay second row =>
      cases row with
      | none =>
          cases second with
          | true =>
              cases h
              have hlt := hright rfl
              cases item with
              | row r => simp only [Stage.accept, yield, Option.isSome_some, if_true]; omega
              | endOfStream => exact Nat.zero_le _
          | false =>
              cases h
              have hlt := hleft rfl
              cases item with
              | row r => simp only [Stage.accept, yield, Option.isSome_some, if_true]; omega
              | endOfStream => simp only [Stage.accept, yield, Option.isSome_none]; omega
      | some r => simp [Stage.want] at h
  | closing => simp [Stage.want] at h

/-- A stage that has sent a row may send one less. -/
theorem yield_send (h : s.want = .send row after) (a b : Nat) : yield a b after < yield a b s := by
  cases s with
  | values rows =>
      cases rows with
      | nil => simp [Stage.want] at h
      | cons item rows =>
          cases item with
          | row r =>
              simp only [Stage.want, Want.send.injEq] at h
              obtain ⟨rfl, rfl⟩ := h
              simp [yield]
          | endOfStream => simp [Stage.want] at h
  | filter condition held =>
      cases held with
      | none => simp [Stage.want] at h
      | some r =>
          simp only [Stage.want] at h
          split at h <;> cases h
          simp [yield]
  | project exprs held =>
      cases held with
      | none => simp [Stage.want] at h
      | some r =>
          simp only [Stage.want] at h
          split at h <;> cases h
          simp [yield]
  | buffer condition right => simp [Stage.want] at h
  | pair condition right left rest =>
      have hnext : Stage.nextPair condition right left rest = .send row after := by
        simpa [Stage.want] using h
      have hheld := Stage.nextPair_held hnext
      obtain ⟨rest', rfl, -⟩ := Stage.through_of_nextPair_send hnext
      simp only [Stage.held] at hheld
      simp only [yield]
      omega
  | relay second held =>
      cases held with
      | none => simp [Stage.want] at h
      | some r =>
          simp only [Stage.want, Want.send.injEq] at h
          obtain ⟨rfl, rfl⟩ := h
          simp [yield]
  | closing => simp [Stage.want] at h

end Yield

/-! ### What may still come through a channel -/

variable {n n' : Network} {output i j k : Nat} {w : Worker} {c : Channel}

/-- How many items may still come through a channel. -/
def coming (n : Network) (i : Nat) : Nat :=
  n.inSlot i + n.supplies[i]?.getD 0

theorem inSlot_of_full (hc : n.channels[i]? = some c) {item : Item} (h : c.slot = some item) :
    n.inSlot i = 1 := by
  unfold inSlot
  rw [hc]
  simp [h]

theorem inSlot_of_empty (hc : n.channels[i]? = some c) (h : c.slot = none) : n.inSlot i = 0 := by
  unfold inSlot
  rw [hc]
  simp [h]

theorem inSlot_congr (h : n'.channels[i]?.map Channel.slot = n.channels[i]?.map Channel.slot) :
    n'.inSlot i = n.inSlot i := by
  unfold inSlot
  cases hc : n.channels[i]? <;> cases hc' : n'.channels[i]? <;> rw [hc, hc'] at h <;> simp_all

/-- What a worker supplies depends only on the workers that feed it. -/
theorem supply_congr {known known' : List Nat}
    (h : ∀ i ∈ w.inputs, known[i]?.getD 0 = known'[i]?.getD 0) :
    n.supply known w = n.supply known' w := by
  have harr : ∀ pos, n.arriving known w pos = n.arriving known' w pos := by
    intro pos
    unfold arriving
    cases hi : w.inputs[pos]? with
    | none => rfl
    | some i =>
        simp only
        rw [h i (List.mem_of_getElem? hi)]
  unfold supply
  rw [harr, harr]

theorem foldl_supply (n : Network) (ws : List Worker) :
    ∀ known : List Nat, ∃ more, ws.foldl (fun known w => known ++ [n.supply known w]) known
        = known ++ more ∧ more.length = ws.length ∧
      ∀ (j : Nat) (w : Worker), ws[j]? = some w →
        more[j]? = some (n.supply (known ++ more.take j) w) := by
  induction ws with
  | nil => intro known; exact ⟨[], by simp, rfl, by simp⟩
  | cons w ws ih =>
      intro known
      obtain ⟨more, hfold, hlen, hmore⟩ := ih (known ++ [n.supply known w])
      refine ⟨n.supply known w :: more, ?_, by simp [hlen], ?_⟩
      · rw [List.foldl_cons, hfold, List.append_assoc]
        rfl
      · intro j v hv
        cases j with
        | zero =>
            cases hv
            simp
        | succ j =>
            rw [List.getElem?_cons_succ] at hv ⊢
            rw [hmore j v hv, List.take_succ_cons, List.append_assoc]
            rfl

/-- The supplies are what each worker supplies, given the supplies. -/
theorem supplies_eq (h : n.Wired output) (hw : n.workers[k]? = some w) :
    n.supplies[k]? = some (n.supply n.supplies w) := by
  obtain ⟨more, hfold, hlen, hmore⟩ := n.foldl_supply n.workers []
  have hsupplies : n.supplies = more := by
    unfold supplies
    rw [hfold, List.nil_append]
  rw [hsupplies, hmore k w hw]
  refine congrArg some (supply_congr ?_)
  intro i hi
  rw [List.nil_append, List.getElem?_take, if_pos (h.earlier k w hw i hi)]

theorem supply_of_working (h : n.Wired output) (hw : n.workers[k]? = some w) {s : Stage}
    {waiting : Bool} (hlife : w.life = .working s waiting) : n.supplies[k]?.getD 0
      = yield (n.arriving n.supplies w 0) (n.arriving n.supplies w 1) s + 1 := by
  rw [supplies_eq h hw, Option.getD_some, supply, hlife]

theorem supply_of_ended (h : n.Wired output) (hw : n.workers[k]? = some w)
    (hlife : w.life.ended? ≠ none) : n.supplies[k]?.getD 0 = 0 := by
  rw [supplies_eq h hw, Option.getD_some, supply]
  cases hl : w.life with
  | working s waiting => rw [hl] at hlife; exact absurd rfl hlife
  | leaving o sources sink => rfl
  | done o => rfl

theorem arriving_of_input (hi : w.inputs[j]? = some i) :
    n.arriving n.supplies w j = n.coming i := by
  unfold arriving
  rw [hi]
  rfl

theorem arriving_le {w' : Worker} (hin : w'.inputs = w.inputs)
    (h : ∀ i ∈ w.inputs, n'.coming i ≤ n.coming i) (pos : Nat) :
    n'.arriving n'.supplies w' pos ≤ n.arriving n.supplies w pos := by
  cases hi : w.inputs[pos]? with
  | none =>
      unfold arriving
      rw [hin, hi]
  | some i =>
      rw [arriving_of_input hi, arriving_of_input (by rw [hin]; exact hi)]
      exact h i (List.mem_of_getElem? hi)

theorem arriving_lt {w' : Worker} (hin : w'.inputs = w.inputs) (hi : w.inputs[j]? = some i)
    (h : n'.coming i < n.coming i) :
    n'.arriving n'.supplies w' j < n.arriving n.supplies w j := by
  rw [arriving_of_input hi, arriving_of_input (by rw [hin]; exact hi)]
  exact h

theorem supplies_length (n : Network) : n.supplies.length = n.workers.length := by
  obtain ⟨more, hfold, hlen, -⟩ := n.foldl_supply n.workers []
  unfold supplies
  rw [hfold, List.nil_append, hlen]

/-- A worker that stays as it is supplies no more when no more comes to it. -/
theorem supply_le_of_same (h : n.Wired output) (h' : n'.Wired output)
    (hsame : n'.workers[j]? = n.workers[j]?)
    (hprev : ∀ i < j, n'.coming i ≤ n.coming i) :
    n'.supplies[j]?.getD 0 ≤ n.supplies[j]?.getD 0 := by
  cases hv : n.workers[j]? with
  | none =>
      have hlen : n'.workers.length ≤ j := List.getElem?_eq_none_iff.mp (hsame.trans hv)
      rw [List.getElem?_eq_none (by rw [supplies_length]; exact hlen)]
      exact Nat.zero_le _
  | some v =>
      have hv' : n'.workers[j]? = some v := hsame.trans hv
      have harr : ∀ pos, n'.arriving n'.supplies v pos ≤ n.arriving n.supplies v pos :=
        arriving_le rfl fun i hi => hprev i (h.earlier j v hv i hi)
      cases hlife : v.life with
      | working s waiting =>
          rw [supply_of_working h hv hlife, supply_of_working h' hv' hlife]
          exact Nat.succ_le_succ (yield_mono (harr 0) (harr 1) s)
      | leaving o sources sink =>
          rw [supply_of_ended h' hv' (by simp [hlife, Life.ended?])]
          exact Nat.zero_le _
      | done o =>
          rw [supply_of_ended h' hv' (by simp [hlife, Life.ended?])]
          exact Nat.zero_le _

/-- Less comes through a channel whose slot was emptied. -/
theorem coming_lt_of_emptied (h : n.Wired output) (h' : n'.Wired output)
    (hsame : n'.workers[i]? = n.workers[i]?) (hprev : ∀ l < i, n'.coming l ≤ n.coming l)
    (hempty : n'.inSlot i = 0) (hfull : n.inSlot i = 1) : n'.coming i < n.coming i := by
  have hsupply := supply_le_of_same h h' hsame hprev
  unfold coming
  omega

/-! ### One step -/

theorem inSlot_update (hc : n.channels[i]? = some c) (c' : Channel) (k : Nat) (w : Worker)
    (life : Life) (j : Nat) : ((n.setChannel i c').setLife k w life).inSlot j
      = if j = i then (if c'.slot.isSome then 1 else 0) else n.inSlot j :=
  inSlot_setChannel hc c' j

/-- A step fills no slot but that of its own output. -/
theorem Step.inSlot_le (hstep : Step n k w n') (hj : j ≠ k) : n'.inSlot j ≤ n.inSlot j := by
  cases hstep with
  | wait _ _ => exact Nat.le_refl _
  | halt _ _ => exact Nat.le_refl _
  | receive _ _ _ hc _ =>
      rw [inSlot_update hc]
      split
      · exact Nat.zero_le _
      · exact Nat.le_refl _
  | send _ _ hc _ _ => rw [inSlot_update hc, if_neg hj]
  | close _ _ hc _ _ => rw [inSlot_update hc, if_neg hj]
  | @dropSource o sources sink i c _ _ hc =>
      rw [inSlot_update hc]
      split
      · rename_i hji
        subst hji
        unfold inSlot
        rw [hc]
        exact Nat.le_refl _
      · exact Nat.le_refl _
  | dropSink _ hc => rw [inSlot_update hc, if_neg hj]
  | @finish o _ =>
      obtain ⟨b, hb⟩ := finish_eq n k w o
      rw [hb]
      exact Nat.le_refl _

/-- No more may come out of a worker's channel than before, and it has fewer steps left. -/
def Lowers (n n' : Network) (k : Nat) (w : Worker) : Prop :=
  n'.coming k ≤ n.coming k ∧ ∃ w', n'.workers[k]? = some w' ∧ w'.inputs = w.inputs ∧
    n'.workOf n'.supplies k w' < n.workOf n.supplies k w

/-- A worker whose operator has ended supplies nothing more and has little to do. -/
theorem lowers_of_ended (h : n.Wired output) (h' : n'.Wired output) (hw : n.workers[k]? = some w)
    {s : Stage} {waiting : Bool} (hlife : w.life = .working s waiting) {o : Outcome}
    (hw' : n'.workers[k]? = some { w with life := .leaving o w.inputs true })
    (hslot : n'.inSlot k ≤ n.inSlot k + 1) : n.Lowers n' k w := by
  have hs := supply_of_working h hw hlife
  have hs' : n'.supplies[k]?.getD 0 = 0 := supply_of_ended h' hw' (by simp [Life.ended?])
  unfold Lowers coming
  refine ⟨by omega, _, hw', rfl, ?_⟩
  simp only [workOf, hlife, if_true]
  split <;> omega

/-- A worker that lets go of what it holds supplies nothing, before and after. -/
theorem lowers_of_left (h' : n'.Wired output) {life : Life}
    (hw' : n'.workers[k]? = some { w with life }) (hended : life.ended? ≠ none)
    (hslot : n'.inSlot k = n.inSlot k)
    (hless : n'.workOf n'.supplies k { w with life } < n.workOf n.supplies k w) :
    n.Lowers n' k w := by
  have hs' : n'.supplies[k]?.getD 0 = 0 := supply_of_ended h' hw' hended
  refine ⟨?_, _, hw', rfl, hless⟩
  unfold coming
  omega

/-- A worker that takes an item out of a channel has one less to come. -/
theorem lowers_of_receive (h : n.Sound output) (hw : n.workers[k]? = some w) {s : Stage}
    {input : Nat} {item : Item} (hlife : w.life = .working s true)
    (hwant : s.want = .receive input) (hi : w.inputs[input]? = some i)
    (hc : n.channels[i]? = some c) (hslot : c.slot = some item)
    (h' : ((n.setChannel i { c with slot := none, finished := item.isEnd }).setLife k w
      (.working (s.accept item) false)).Sound output)
    (hprev : ∀ l < k, ((n.setChannel i { c with slot := none, finished := item.isEnd }).setLife k w
      (.working (s.accept item) false)).coming l ≤ n.coming l) :
    n.Lowers ((n.setChannel i { c with slot := none, finished := item.isEnd }).setLife k w
      (.working (s.accept item) false)) k w := by
  have hik : i < k := h.earlier k w hw i (List.mem_of_getElem? hi)
  have hslots := inSlot_update hc { c with slot := none, finished := item.isEnd } k w
    (.working (s.accept item) false)
  have hw' := (workers_update hw i { c with slot := none, finished := item.isEnd }
    (.working (s.accept item) false) k).trans (if_pos rfl)
  have hs := supply_of_working h.toWired hw hlife
  have hs' := supply_of_working h'.toWired hw' rfl
  have hwires : ({ w with life := .working (s.accept item) false } : Worker).inputs
      = w.inputs := rfl
  have harr := arriving_le hwires fun l hl => hprev l (h.earlier k w hw l hl)
  have h0 := harr 0
  have h1 := harr 1
  have hless := coming_lt_of_emptied h.toWired h'.toWired
    ((workers_update hw i _ _ i).trans (if_neg (Nat.ne_of_lt hik)))
    (fun l hl => hprev l (Nat.lt_trans hl hik)) ((hslots i).trans (if_pos rfl))
    (inSlot_of_full hc hslot)
  have hlt := arriving_lt hwires hi hless
  have hyield := yield_accept hwant h0 h1 (by rintro rfl; exact hlt) (by rintro rfl; exact hlt)
    item
  have hown := (hslots k).trans (if_neg (Nat.ne_of_gt hik))
  unfold Lowers coming
  refine ⟨by omega, _, hw', rfl, ?_⟩
  simp only [workOf, hlife, if_true, Bool.false_eq_true, if_false]
  rcases receive_input hwant with rfl | rfl <;> omega

/-- What a step does to the worker that makes it. -/
theorem Step.own_lt (hstep : Step n k w n') (h : n.Sound output) (hw : n.workers[k]? = some w)
    (hprev : ∀ i < k, n'.coming i ≤ n.coming i) : n.Lowers n' k w := by
  have h' : n'.Sound output := hstep.sound h hw
  have harr : ∀ life pos, n'.arriving n'.supplies { w with life } pos
      ≤ n.arriving n.supplies w pos :=
    fun life => arriving_le rfl fun i hi => hprev i (h.earlier k w hw i hi)
  cases hstep with
  | @wait s hlife hwant =>
      have hw' := (workers_setLife hw (.working s true) k).trans (if_pos rfl)
      have hs := supply_of_working h.toWired hw hlife
      have hs' := supply_of_working h'.toWired hw' rfl
      have h0 := harr (.working s true) 0
      have h1 := harr (.working s true) 1
      have hyield := yield_mono h0 h1 s
      have hslot : (n.setLife k w (.working s true)).inSlot k = n.inSlot k := rfl
      unfold Lowers coming
      refine ⟨by omega, _, hw', rfl, ?_⟩
      simp only [workOf, hlife, if_true, Bool.false_eq_true, if_false]
      omega
  | @halt s waiting o hlife hwhy =>
      have hw' := (workers_setLife hw (.leaving o w.inputs true) k).trans (if_pos rfl)
      have hslot : (n.setLife k w (.leaving o w.inputs true)).inSlot k = n.inSlot k := rfl
      exact lowers_of_ended h.toWired h'.toWired hw hlife hw' (by omega)
  | receive hlife hwant hi hc hslot => exact lowers_of_receive h hw hlife hwant hi hc hslot h' hprev
  | @send s after row c hlife hwant hc hconsumer hslot =>
      have hw' := (workers_update hw k { c with slot := some (.row row) }
        (.working after false) k).trans (if_pos rfl)
      have hs := supply_of_working h.toWired hw hlife
      have hs' := supply_of_working h'.toWired hw' rfl
      have h0 := harr (.working after false) 0
      have h1 := harr (.working after false) 1
      have hyield := yield_mono h0 h1 after
      have hsent := yield_send hwant (n.arriving n.supplies w 0) (n.arriving n.supplies w 1)
      have hempty := inSlot_of_empty hc hslot
      have hfull := inSlot_update hc { c with slot := some (.row row) } k w (.working after false) k
      simp only [if_true, Option.isSome_some] at hfull
      unfold Lowers coming
      refine ⟨by omega, _, hw', rfl, ?_⟩
      simp only [workOf, hlife, if_true, Bool.false_eq_true, if_false]
      omega
  | @close s c hlife hwant hc hconsumer hslot =>
      have hw' := (workers_update hw k { c with slot := some .endOfStream }
        (.leaving .ok w.inputs true) k).trans (if_pos rfl)
      have hfull := inSlot_update hc { c with slot := some .endOfStream } k w
        (.leaving .ok w.inputs true) k
      simp only [if_true, Option.isSome_some] at hfull
      exact lowers_of_ended h.toWired h'.toWired hw hlife hw' (by omega)
  | @dropSource o sources sink i c hlife hi hc =>
      have hw' := (workers_update hw i c.dropConsumer (.leaving o (sources.erase i) sink) k).trans
        (if_pos rfl)
      have hik : k ≠ i := by
        have hapt := h.apt k w hw
        rw [hlife] at hapt
        exact Nat.ne_of_gt (h.earlier k w hw i (hapt.2 hi))
      have hslot := (inSlot_update hc c.dropConsumer k w (.leaving o (sources.erase i) sink)
        k).trans (if_neg hik)
      refine lowers_of_left h'.toWired hw' (by simp [Life.ended?]) hslot ?_
      have hlen := List.length_erase_of_mem hi
      have hpos := List.length_pos_of_mem hi
      simp only [workOf, hlife]
      omega
  | @dropSink o sources c hlife hc =>
      have hw' := (workers_update hw k c.dropProducer (.leaving o sources false) k).trans
        (if_pos rfl)
      have hslot : ((n.setChannel k c.dropProducer).setLife k w
          (.leaving o sources false)).inSlot k = n.inSlot k := by
        rw [inSlot_update hc, if_pos rfl]
        unfold inSlot
        rw [hc]
        rfl
      refine lowers_of_left h'.toWired hw' (by simp [Life.ended?]) hslot ?_
      simp only [workOf, hlife, if_true, Bool.false_eq_true, if_false]
      omega
  | @finish o hlife =>
      obtain ⟨b, hb⟩ := finish_eq n k w o
      rw [hb] at h' ⊢
      have hw' : ({ n.setLife k w (.done o) with cancelled := b } : Network).workers[k]?
          = some { w with life := .done o } := (workers_setLife hw (.done o) k).trans (if_pos rfl)
      refine lowers_of_left h'.toWired hw' (by simp [Life.ended?]) rfl ?_
      simp only [workOf, hlife]
      omega

/-- **No step lets more come through a channel.** -/
theorem Step.coming_le (hstep : Step n k w n') (h : n.Sound output)
    (hw : n.workers[k]? = some w) (i : Nat) : n'.coming i ≤ n.coming i := by
  have h' : n'.Sound output := hstep.sound h hw
  obtain ⟨life, hworkers, -⟩ := hstep.workers
  induction i using Nat.strong_induction_on with
  | _ i ih =>
      by_cases hi : i = k
      · subst hi
        exact (hstep.own_lt h hw ih).1
      · have hsame : n'.workers[i]? = n.workers[i]? := by
          rw [hworkers, List.getElem?_set_ne (Ne.symm hi)]
        have hsupply := supply_le_of_same h.toWired h'.toWired hsame ih
        have hslot := hstep.inSlot_le hi
        unfold coming
        omega

/-! ### All workers together -/

theorem total_le_of_forall₂ {l l' : List Nat} (h : List.Forall₂ (· ≤ ·) l' l) :
    total l' ≤ total l := by
  induction h with
  | nil => exact Nat.le_refl _
  | cons hle _ ih =>
      rw [total_cons, total_cons]
      omega

/-- A sum is smaller when no part is larger and one is smaller. -/
theorem total_lt_of_forall₂ {l l' : List Nat} (h : List.Forall₂ (· ≤ ·) l' l) :
    ∀ {k : Nat} {x y : Nat}, l[k]? = some x → l'[k]? = some y → y < x → total l' < total l := by
  induction h with
  | nil => intro k x y hx; cases hx
  | @cons a b as bs hle hrest ih =>
      intro k x y hx hy hlt
      rw [total_cons, total_cons]
      cases k with
      | zero =>
          cases hx
          cases hy
          have := total_le_of_forall₂ hrest
          omega
      | succ k =>
          have := ih hx hy hlt
          omega

/-- How many steps each worker may still make. -/
def shares (n : Network) : List Nat :=
  n.workers.zipIdx.map fun (w, k) => n.workOf n.supplies k w

theorem shares_getElem? (n : Network) (k : Nat) :
    n.shares[k]? = n.workers[k]?.map fun w => n.workOf n.supplies k w := by
  unfold shares
  rw [List.getElem?_map, List.getElem?_zipIdx, Option.map_map]
  simp [Function.comp_def]

theorem shares_length (n : Network) : n.shares.length = n.workers.length := by
  unfold shares
  rw [List.length_map, List.length_zipIdx]

/-- Shares that are not larger worker by worker. -/
theorem shares_le (hlen : n'.workers.length = n.workers.length)
    (hle : ∀ (k : Nat) (w w' : Worker), n.workers[k]? = some w → n'.workers[k]? = some w' →
      n'.workOf n'.supplies k w' ≤ n.workOf n.supplies k w) :
    List.Forall₂ (· ≤ ·) n'.shares n.shares := by
  refine List.forall₂_iff_get.mpr ⟨?_, ?_⟩
  · rw [shares_length, shares_length, hlen]
  · intro k hk' hk
    have hx := n.shares_getElem? k
    have hy := n'.shares_getElem? k
    rw [List.getElem?_eq_getElem hk, eq_comm, Option.map_eq_some_iff] at hx
    rw [List.getElem?_eq_getElem hk', eq_comm, Option.map_eq_some_iff] at hy
    obtain ⟨w, hw, hx⟩ := hx
    obtain ⟨w', hw', hy⟩ := hy
    have hthis := hle k w w' hw hw'
    rw [hx, hy] at hthis
    exact hthis

/-- A worker that did not move has no more work when no more comes to it. -/
theorem workOf_le_of_same (h : n.Wired output) (h' : n'.Wired output)
    (hw : n.workers[k]? = some w) (hw' : n'.workers[k]? = some w)
    (hcoming : ∀ i, n'.coming i ≤ n.coming i) :
    n'.workOf n'.supplies k w ≤ n.workOf n.supplies k w := by
  have hsupply := supply_le_of_same h h' (hw'.trans hw.symm) fun i _ => hcoming i
  have harr : ∀ pos, n'.arriving n'.supplies w pos ≤ n.arriving n.supplies w pos :=
    arriving_le rfl fun i _ => hcoming i
  have h0 := harr 0
  have h1 := harr 1
  unfold workOf
  cases w.life with
  | working s waiting => simp only; omega
  | leaving o sources sink => exact Nat.le_refl _
  | done o => exact Nat.le_refl _

/-- **Every step of a worker leaves less work.** -/
theorem Step.work_lt (hstep : Step n k w n') (h : n.Sound output)
    (hw : n.workers[k]? = some w) : n'.work < n.work := by
  have h' : n'.Sound output := hstep.sound h hw
  have hcoming := hstep.coming_le h hw
  obtain ⟨life, hworkers, -⟩ := hstep.workers
  obtain ⟨-, w', hw', -, hlt⟩ := hstep.own_lt h hw fun i _ => hcoming i
  have hle := shares_le hstep.workers_length fun j v v' hv hv' => by
    by_cases hj : j = k
    · subst hj
      rw [hw] at hv
      rw [hw'] at hv'
      cases hv
      cases hv'
      exact Nat.le_of_lt hlt
    · have hsame : n'.workers[j]? = n.workers[j]? := by
        rw [hworkers, List.getElem?_set_ne (Ne.symm hj)]
      have hv₀ : n'.workers[j]? = some v := hsame.trans hv
      rw [hv₀] at hv'
      cases hv'
      exact workOf_le_of_same h.toWired h'.toWired hv hv₀ hcoming
  refine total_lt_of_forall₂ hle ((n.shares_getElem? k).trans ?_)
    ((n'.shares_getElem? k).trans ?_) hlt
  · rw [hw]
    rfl
  · rw [hw']
    rfl

/-! ### What the caller does to the answer -/

/-- When no worker has moved and no slot was filled, no more comes and there is no more work. -/
theorem work_le_of_same (h : n.Wired output) (h' : n'.Wired output)
    (hworkers : n'.workers = n.workers) (hslot : ∀ i, n'.inSlot i ≤ n.inSlot i) :
    (∀ i, n'.coming i ≤ n.coming i) ∧ n'.work ≤ n.work := by
  have hcoming : ∀ i, n'.coming i ≤ n.coming i := by
    intro i
    induction i using Nat.strong_induction_on with
    | _ i ih =>
        have hsupply := supply_le_of_same h h' (by rw [hworkers]) ih
        have hslot := hslot i
        unfold coming
        omega
  refine ⟨hcoming, ?_⟩
  refine total_le_of_forall₂ (shares_le (congrArg List.length hworkers) ?_)
  intro k w w' hw hw'
  have hw₀ : n'.workers[k]? = some w := by
    rw [hworkers]
    exact hw
  rw [hw₀] at hw'
  cases hw'
  exact workOf_le_of_same h h' hw hw₀ hcoming

end Network

end StreamQuery
