/-
Who waits for whom.

A worker that waits to put an item waits for a full slot to become empty, and one that
waits for an item waits for an empty slot whose producer is still there.  Workers may
wait in both ways at once all over the tree, for instance those that feed the left
input of a join while the join still reads its right input.  They do not matter:
whoever is waited for with an empty slot either can make a step or waits for an empty
slot further down, and the leaves wait for nothing.  So the descent ends at a worker
that can make a step.

When the query has been cancelled, or its answer is closed, every worker that is not
done can make a step by itself.
-/
import StreamQuery.Proofs.Query.Step

namespace StreamQuery

namespace Network

variable {n : Network} {output i k : Nat} {w : Worker} {s : Stage} {c : Channel}

/-- Worker `k` can make a step. -/
def Moves (n : Network) (k : Nat) : Prop :=
  ∃ m n', n.step k m = some n'

/-- A worker can always begin the call that it wants. -/
theorem moves_of_begin (h : n.Sound output) (hw : n.workers[k]? = some w)
    (hlife : w.life = .working s false) : n.Moves k := by
  have hstep : n.step k .proceed = n.begin k w s := by
    unfold step
    simp only [hw, hlife]
  suffices hsome : ∃ n', n.begin k w s = some n' by
    obtain ⟨n', hn'⟩ := hsome
    exact ⟨.proceed, n', hstep.trans hn'⟩
  unfold begin
  cases hwant : s.want with
  | fail d => exact ⟨_, rfl⟩
  | receive input =>
      obtain ⟨j, c, hj, hc, -⟩ := h.wanted_input hw hlife hwant
      simp only [inputOf?_eq hj hc, Option.bind_eq_bind, Option.bind_some]
      split <;> exact ⟨_, rfl⟩
  | send row after => simp only; split <;> exact ⟨_, rfl⟩
  | close => simp only; split <;> exact ⟨_, rfl⟩

/-- A worker whose operator has ended can always let go of something, or finish. -/
theorem moves_of_leaving (hw : n.workers[k]? = some w) {o : Outcome} {sources : List Nat}
    {sink : Bool} (hlife : w.life = .leaving o sources sink) : n.Moves k := by
  cases sources with
  | cons j rest =>
      refine ⟨.dropSource j, ?_⟩
      unfold step
      simp only [hw, hlife, List.mem_cons_self, if_true]
      split <;> exact ⟨_, rfl⟩
  | nil =>
      cases sink with
      | true =>
          refine ⟨.dropSink, ?_⟩
          unfold step
          simp only [hw, hlife]
          split <;> exact ⟨_, rfl⟩
      | false =>
          refine ⟨.proceed, n.finish k w o, ?_⟩
          unfold step
          simp only [hw, hlife]

/-- A worker that waits to put its item goes on once the slot is empty, or nobody will take it. -/
theorem moves_of_put (h : n.Sound output) (hw : n.workers[k]? = some w)
    (hlife : w.life = .working s true)
    (hwant : (∃ row after, s.want = .send row after) ∨ s.want = .close)
    (hc : n.channels[k]? = some c) (hopen : ∀ item, ∃ r, c.put? item = some r) : n.Moves k := by
  have hput : ∀ item, ∃ n', n.putItem k w s item = some n' := by
    intro item
    obtain ⟨⟨r, c'⟩, hr⟩ := hopen item
    unfold putItem
    rw [h.writes k w hw, hc]
    simp only [Option.bind_eq_bind, Option.bind_some, hr]
    split <;> exact ⟨_, rfl⟩
  refine ⟨.proceed, ?_⟩
  unfold step
  simp only [hw, hlife, use]
  rcases hwant with ⟨row, after, hwant⟩ | hwant
  · simp only [hwant]
    exact hput _
  · simp only [hwant]
    exact hput _

/-- A worker that waits for an item can go on once there is one, or none will come. -/
theorem moves_of_take (hw : n.workers[k]? = some w) (hlife : w.life = .working s true)
    {input : Nat} (hwant : s.want = .receive input) (hi : w.inputs[input]? = some i)
    (hc : n.channels[i]? = some c) (htake : c.take? ≠ none) : n.Moves k := by
  refine ⟨.proceed, ?_⟩
  unfold step
  simp only [hw, hlife, use, hwant, inputOf?_eq hi hc, Option.bind_eq_bind, Option.bind_some]
  cases hr : c.take? with
  | none => exact absurd hr htake
  | some result =>
      simp only [Option.bind_some]
      split <;> exact ⟨_, rfl⟩

/-- **Where an empty slot is waited for, somebody can make a step.** The induction goes down the
tree: a producer that cannot make a step waits for an empty slot of one of its own inputs. -/
theorem moves_of_awaited (h : n.Sound output) : ∀ {i : Nat} {c : Channel},
    n.channels[i]? = some c → c.slot = none → c.producer = true → ∃ k, n.Moves k := by
  intro i
  induction i using Nat.strong_induction_on with
  | _ i ih =>
      intro c hc hslot hproducer
      obtain ⟨w, hw⟩ := h.worker_of_channel hc
      have hholds := (h.sink i w c hw hc).producer
      rw [hproducer] at hholds
      cases hlife : w.life with
      | done o =>
          rw [hlife] at hholds
          cases hholds
      | leaving o sources sink => exact ⟨i, moves_of_leaving hw hlife⟩
      | working s waiting =>
          cases waiting with
          | false => exact ⟨i, moves_of_begin h hw hlife⟩
          | true =>
              cases hwant : s.want with
              | fail d =>
                  have hapt := h.apt i w hw
                  rw [hlife] at hapt
                  exact absurd hwant (hapt.2 rfl d)
              | send row after =>
                  exact ⟨i, moves_of_put h hw hlife (.inl ⟨row, after, hwant⟩) hc
                    (Channel.put?_of_empty hslot)⟩
              | close => exact ⟨i, moves_of_put h hw hlife (.inr hwant) hc
                    (Channel.put?_of_empty hslot)⟩
              | receive input =>
                  obtain ⟨j, cj, hj, hcj, -⟩ := h.wanted_input hw hlife hwant
                  have hlt : j < i := h.earlier i w hw j (List.mem_of_getElem? hj)
                  cases htake : cj.take? with
                  | some result =>
                      exact ⟨i, moves_of_take hw hlife hwant hj hcj (by rw [htake]; simp)⟩
                  | none =>
                      obtain ⟨hslot', hproducer'⟩ := Channel.take?_eq_none htake
                      exact ih j hlt hcj hslot' hproducer'

/-- When the query was cancelled, every worker that is not done can make a step. -/
theorem moves_of_cancelled (h : n.Sound output) (hcancelled : n.cancelled = true)
    (hw : n.workers[k]? = some w) (hlife : ∀ o, w.life ≠ .done o) : n.Moves k := by
  cases hl : w.life with
  | done o => exact absurd hl (hlife o)
  | leaving o sources sink => exact moves_of_leaving hw hl
  | working s waiting =>
      cases waiting with
      | false => exact moves_of_begin h hw hl
      | true =>
          refine ⟨.giveUp, ?_⟩
          unfold step
          simp only [hw, hl, hcancelled, if_true]
          exact ⟨_, rfl⟩

/-- When the answer is closed, every worker that is not done can make a step. -/
theorem moves_of_closed (h : n.Sound output) (hc : n.channels[output]? = some c)
    (hclosed : c.Closed) (hw : n.workers[k]? = some w) (hlife : ∀ o, w.life ≠ .done o) :
    n.Moves k := by
  have hended := h.all_ended hc hclosed k w hw
  cases hl : w.life with
  | done o => exact absurd hl (hlife o)
  | leaving o sources sink => exact moves_of_leaving hw hl
  | working s waiting =>
      rw [hl] at hended
      cases hended

/-! ### When nobody takes the answer -/

/-- A worker waits to put an item into its output, but the last one was not taken out. -/
def HeldUp (n : Network) (k : Nat) : Prop :=
  ∃ w s c, n.workers[k]? = some w ∧ w.life = .working s true ∧
    ((∃ row after, s.want = .send row after) ∨ s.want = .close) ∧
    n.channels[k]? = some c ∧ c.consumer = true ∧ c.slot ≠ none

/-- Nobody takes the answer, and nobody has cancelled the query. -/
def Blocked (n : Network) (output : Nat) : Prop :=
  n.cancelled = false ∧ n.HeldUp output

/-- A worker that is not done is held up, or somebody can make a step. -/
theorem moves_or_heldUp (h : n.Sound output) (hw : n.workers[k]? = some w)
    (hlife : ∀ o, w.life ≠ .done o) : (∃ j, n.Moves j) ∨ n.HeldUp k := by
  have hputs : ∀ {s : Stage}, w.life = .working s true →
      (∃ row after, s.want = .send row after) ∨ s.want = .close →
      (∃ j, n.Moves j) ∨ n.HeldUp k := by
    intro s hl hwant
    obtain ⟨c, hc⟩ := h.channel_of_worker hw
    cases hslot : c.slot with
    | none => exact .inl ⟨k, moves_of_put h hw hl hwant hc (Channel.put?_of_empty hslot)⟩
    | some item =>
        cases hconsumer : c.consumer with
        | false => exact .inl ⟨k, moves_of_put h hw hl hwant hc (Channel.put?_of_gone hconsumer)⟩
        | true => exact .inr ⟨w, s, c, hw, hl, hwant, hc, hconsumer, by simp [hslot]⟩
  cases hl : w.life with
  | done o => exact absurd hl (hlife o)
  | leaving o sources sink => exact .inl ⟨k, moves_of_leaving hw hl⟩
  | working s waiting =>
      cases waiting with
      | false => exact .inl ⟨k, moves_of_begin h hw hl⟩
      | true =>
          cases hwant : s.want with
          | fail d =>
              have hapt := h.apt k w hw
              rw [hl] at hapt
              exact absurd hwant (hapt.2 rfl d)
          | send row after => exact hputs hl (.inl ⟨row, after, hwant⟩)
          | close => exact hputs hl (.inr hwant)
          | receive input =>
              obtain ⟨i, ci, hi, hci, -⟩ := h.wanted_input hw hl hwant
              cases htake : ci.take? with
              | some result =>
                  exact .inl ⟨k, moves_of_take hw hl hwant hi hci (by rw [htake]; simp)⟩
              | none =>
                  obtain ⟨hslot, hproducer⟩ := Channel.take?_eq_none htake
                  exact .inl (moves_of_awaited h hci hslot hproducer)

/-- Whoever is held up, and is not the root, has a reader that is not done. -/
theorem HeldUp.reader (hheld : n.HeldUp k) (h : n.Sound output) (hroot : k ≠ output) :
    ∃ l v, k < l ∧ n.workers[l]? = some v ∧ ∀ o, v.life ≠ .done o := by
  obtain ⟨w, s, c, hw, -, -, hc, hconsumer, -⟩ := hheld
  obtain ⟨l, v, hv, hmem⟩ := h.read k (List.getElem?_eq_some_iff.mp hw).1 hroot
  refine ⟨l, v, h.earlier l v hv k hmem, hv, ?_⟩
  intro o ho
  obtain ⟨pos, hpos⟩ := List.mem_iff_getElem?.mp hmem
  have hholds := (h.source l v pos k c hv hpos hc).consumer
  rw [hconsumer, ho] at hholds
  cases hholds

/-- **Workers stop short of their ends only when nobody takes the answer.**  The induction goes
from the worker up to the root. -/
theorem moves_or_blocked (h : n.Sound output) (hw : n.workers[k]? = some w)
    (hlife : ∀ o, w.life ≠ .done o) : (∃ j, n.Moves j) ∨ n.Blocked output := by
  have hup : ∀ (m k : Nat) (w : Worker), n.workers.length - k = m → n.workers[k]? = some w →
      (∀ o, w.life ≠ .done o) → (∃ j, n.Moves j) ∨ n.HeldUp output := by
    intro m
    induction m using Nat.strong_induction_on with
    | _ m ih =>
        intro k w hm hw hlife
        rcases moves_or_heldUp h hw hlife with hmoves | hheld
        · exact .inl hmoves
        · by_cases hroot : k = output
          · exact .inr (hroot ▸ hheld)
          · obtain ⟨l, v, hlt, hv, hv'⟩ := hheld.reader h hroot
            have hl : l < n.workers.length := (List.getElem?_eq_some_iff.mp hv).1
            exact ih (n.workers.length - l) (by omega) l v rfl hv hv'
  rcases hup _ k w rfl hw hlife with hmoves | hheld
  · exact .inl hmoves
  · cases hcancelled : n.cancelled with
    | false => exact .inr ⟨hcancelled, hheld⟩
    | true => exact .inl ⟨k, moves_of_cancelled h hcancelled hw hlife⟩

end Network

end StreamQuery
