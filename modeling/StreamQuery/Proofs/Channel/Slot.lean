/-
What the operations of a channel can do.

The slot of a channel goes through the same circle again and again: it is filled by a
put, emptied by a take.  Each lemma here says everything that one operation can do, so
that whoever reasons about runs never has to open the operation.

A channel is closed once the closing mark has been put.  That is so as long as the mark
lies in the slot, and for good once it has been taken.
-/
import StreamQuery.Channel.Basic

namespace StreamQuery

namespace Channel

variable {c c' : Channel} {item : Item}

/-- The closing mark was put. -/
def Closed (c : Channel) : Prop :=
  c.finished = true ∨ c.slot = some .endOfStream

/-- The rows on their way, at most one. -/
def held (c : Channel) : List Row :=
  match c.slot with
  | some (.row r) => [r]
  | _ => []

theorem held_of_row {r : Row} (h : c.slot = some (.row r)) : c.held = [r] := by
  rw [held, h]

theorem held_of_empty (h : c.slot = none) : c.held = [] := by
  rw [held, h]

theorem not_closed_new : ¬ new.Closed := by
  intro h
  rcases h with h | h
  · cases h
  · cases h

/-! ### Putting -/

theorem put?_cases {r : Except ChannelError Unit} (h : c.put? item = some (r, c')) :
    (c.consumer = false ∧ r = .error .consumerClosed ∧ c' = c) ∨
      (c.consumer = true ∧ c.slot = none ∧ r = .ok () ∧ c' = { c with slot := some item }) := by
  unfold put? at h
  by_cases hconsumer : c.consumer = true
  · rw [if_pos hconsumer] at h
    split at h
    · simp at h
    · rename_i hslot
      cases h
      exact .inr ⟨hconsumer, hslot, rfl, rfl⟩
  · rw [if_neg hconsumer] at h
    cases h
    exact .inl ⟨by simpa using hconsumer, rfl, rfl⟩

/-- A put goes on as soon as the slot is empty, whether or not somebody will take the item. -/
theorem put?_of_empty (h : c.slot = none) (item : Item) : ∃ r, c.put? item = some r := by
  unfold put?
  rw [h]
  by_cases hconsumer : c.consumer = true
  · rw [if_pos hconsumer]
    exact ⟨_, rfl⟩
  · rw [if_neg hconsumer]
    exact ⟨_, rfl⟩

/-- A put goes on when nobody will take the item, whether or not the slot is empty. -/
theorem put?_of_gone (h : c.consumer = false) (item : Item) : ∃ r, c.put? item = some r := by
  unfold put?
  rw [if_neg (by simp [h])]
  exact ⟨_, rfl⟩

theorem beginPut_eq_some {cancelled : Bool} {e : ChannelError}
    (h : beginPut cancelled = some e) : cancelled = true ∧ e = .cancelled := by
  unfold beginPut at h
  split at h
  · rename_i hcancelled
    cases h
    exact ⟨hcancelled, rfl⟩
  · simp at h

/-! ### Taking -/

theorem take?_cases {r : Except ChannelError Item} (h : c.take? = some (r, c')) :
    (c.slot = none ∧ c.producer = false ∧ r = .error .producerStopped ∧ c' = c) ∨
      ∃ item, c.slot = some item ∧ r = .ok item ∧
        c' = { c with slot := none, finished := item.isEnd } := by
  unfold take? at h
  split at h
  · rename_i item hslot
    cases h
    exact .inr ⟨item, hslot, rfl, rfl⟩
  · rename_i hslot
    by_cases hproducer : c.producer = true
    · rw [if_pos hproducer] at h
      simp at h
    · rw [if_neg hproducer] at h
      cases h
      exact .inl ⟨hslot, by simpa using hproducer, rfl, rfl⟩

/-- A take waits only for a producer that may still fill the slot. -/
theorem take?_eq_none (h : c.take? = none) : c.slot = none ∧ c.producer = true := by
  unfold take? at h
  split at h
  · simp at h
  · rename_i hslot
    by_cases hproducer : c.producer = true
    · exact ⟨hslot, hproducer⟩
    · rw [if_neg hproducer] at h
      simp at h

theorem beginTake_cases (c : Channel) (cancelled : Bool) :
    (c.finished = true ∧ c.beginTake cancelled = some (.ok .endOfStream)) ∨
      (c.finished = false ∧ cancelled = true ∧
        c.beginTake cancelled = some (.error .cancelled)) ∨
      (c.finished = false ∧ cancelled = false ∧ c.beginTake cancelled = none) := by
  unfold beginTake
  cases hfinished : c.finished with
  | true => exact .inl ⟨rfl, rfl⟩
  | false =>
      cases cancelled with
      | true => exact .inr (.inl ⟨rfl, rfl, rfl⟩)
      | false => exact .inr (.inr ⟨rfl, rfl, rfl⟩)

/-- A take keeps a channel closed and does not close one.  Behind the closing mark nothing may lie
in the slot. -/
theorem closed_take (hspent : c.finished = true → c.slot = none) (hslot : c.slot = some item) :
    Closed { c with slot := none, finished := item.isEnd } ↔ c.Closed := by
  have hopen : c.finished = false := by
    cases hfinished : c.finished with
    | false => rfl
    | true => rw [hspent hfinished] at hslot; cases hslot
  unfold Closed
  rw [hslot, hopen]
  cases item with
  | row r => simp [Item.isEnd]
  | endOfStream => simp [Item.isEnd]

end Channel

end StreamQuery
