/-
Comparing rows in any order.

The rows of the second list are taken out one by one, and the last row of what is left moves into
each gap.  So what is left is soon in an order of its own; all that can be said of it is that,
together with the rows that have been taken out, it is the second list in another order.  That is
enough: the comparison ends well exactly if nothing is left, and the order of the lists plays no
part.
-/
import Mathlib
import StreamQuery.Row

namespace StreamQuery

section

open scoped List

variable {α : Type} [DecidableEq α] {x last : α} {before middle xs ys zs rest : List α}

/-! ### Taking one element out -/

theorem swapRemove_eq_none : swapRemove x ys = none ↔ x ∉ ys := by
  unfold swapRemove
  cases hfound : ys.idxOf? x with
  | none => exact iff_of_true rfl (List.idxOf?_eq_none_iff.mp hfound)
  | some i =>
      obtain ⟨hi, hx, -⟩ := List.idxOf?_eq_some_iff.mp hfound
      have hmem : x ∈ ys := hx ▸ List.getElem_mem hi
      have hne : ys ≠ [] := List.ne_nil_of_mem hmem
      simp [List.getLast?_eq_getLast_of_ne_nil hne, hmem]

/-- The place of the first `x` behind elements that are not `x`. -/
theorem idxOf?_behind (hbefore : x ∉ before) :
    (before ++ x :: rest).idxOf? x = some before.length := by
  rw [List.idxOf?_eq_some_iff]
  refine ⟨by simp, by simp, fun j hj heq => ?_⟩
  rw [List.getElem_append_left hj] at heq
  exact hbefore (heq ▸ List.getElem_mem hj)

/-- An element at the end is taken off. -/
theorem swapRemove_end (hbefore : x ∉ before) : swapRemove x (before ++ [x]) = some before := by
  unfold swapRemove
  rw [idxOf?_behind hbefore]
  simp

/-- The last element takes the place of one that is taken out further in front. -/
theorem swapRemove_middle (hbefore : x ∉ before) :
    swapRemove x (before ++ x :: (middle ++ [last])) = some (before ++ last :: middle) := by
  unfold swapRemove
  rw [idxOf?_behind hbefore]
  have hlast : (before ++ x :: (middle ++ [last])).getLast? = some last := by
    simp [List.getLast?_append, List.getLast?_cons]
  have hset : (before ++ x :: (middle ++ [last])).set before.length last
      = (before ++ last :: middle) ++ [last] := by
    simp
  simp only [hlast, hset, List.dropLast_concat]

/-- What an element is taken out of is the element together with what is left. -/
theorem perm_of_swapRemove (h : swapRemove x ys = some rest) : ys.Perm (x :: rest) := by
  have hmem : x ∈ ys := by
    by_contra hnot
    rw [swapRemove_eq_none.mpr hnot] at h
    cases h
  obtain ⟨before, after, rfl, hbefore⟩ := List.eq_append_cons_of_mem hmem
  rcases List.eq_nil_or_concat after with rfl | ⟨middle, last, rfl⟩
  · rw [swapRemove_end hbefore] at h
    obtain rfl := Option.some.inj h
    exact List.perm_append_singleton x _
  · rw [List.concat_eq_append] at h ⊢
    rw [swapRemove_middle hbefore] at h
    cases h
    calc before ++ x :: (middle ++ [last])
        _ ~ x :: (before ++ (middle ++ [last])) := List.perm_middle
        _ ~ x :: (before ++ last :: middle) :=
          ((List.perm_append_singleton last middle).append_left before).cons x

/-! ### Taking one list out of another -/

/-- One list can be taken out of another with nothing left exactly if it is that list in another
order. -/
theorem takesAll_iff_perm : ∀ {xs ys : List α}, sameElements.go xs ys = true ↔ ys.Perm xs
  | [], ys => by simp [sameElements.go]
  | x :: xs, ys => by
      unfold sameElements.go
      cases hrest : swapRemove x ys with
      | none =>
          have hnot := swapRemove_eq_none.mp hrest
          exact iff_of_false nofun fun hperm => hnot (hperm.mem_iff.mpr List.mem_cons_self)
      | some rest =>
          have hperm := perm_of_swapRemove hrest
          -- What was taken out is in front on both sides and drops out of the comparison.
          rw [takesAll_iff_perm]
          exact ⟨fun h => hperm.trans (h.cons x), fun h => (hperm.symm.trans h).cons_inv⟩

theorem sameElements_iff_perm : sameElements xs ys = true ↔ ys.Perm xs := by
  unfold sameElements
  rw [Bool.and_eq_true, beq_iff_eq, takesAll_iff_perm]
  exact and_iff_right_of_imp fun h => h.length_eq.symm

/-- The answer is the same for any order of the two lists. -/
theorem sameElements_congr {xs' ys' : List α} (hxs : xs'.Perm xs) (hys : ys'.Perm ys) :
    sameElements xs' ys' = sameElements xs ys := by
  rw [Bool.eq_iff_iff, sameElements_iff_perm, sameElements_iff_perm]
  exact ⟨fun h => hys.symm.trans (h.trans hxs), fun h => hys.trans (h.trans hxs.symm)⟩

theorem sameElements_comm (xs ys : List α) : sameElements xs ys = sameElements ys xs := by
  rw [Bool.eq_iff_iff, sameElements_iff_perm, sameElements_iff_perm]
  exact List.perm_comm

theorem sameElements_trans (h : sameElements xs ys = true) (h' : sameElements ys zs = true) :
    sameElements xs zs = true := by
  rw [sameElements_iff_perm] at h h' ⊢
  exact h'.trans h

end

/-- **Two lists of rows are the same in any order exactly if one is a permutation of the other**,
so that each row is in both as often.  Rows without fields and closing marks count like any other.
Which list is taken out of which plays no part, nor does the order of either, and two lists that are
the same as a third are the same. -/
theorem Item.same_in_any_order (as bs : List Item) :
    (sameElements as bs = true ↔ bs.Perm as) ∧
    (sameElements as bs = true ↔ ∀ r, as.count r = bs.count r) ∧
    sameElements as bs = sameElements bs as ∧
    (∀ cs, sameElements as bs = true → sameElements bs cs = true → sameElements as cs = true) ∧
    (∀ as' bs', as'.Perm as → bs'.Perm bs → sameElements as' bs' = sameElements as bs) := by
  have hcount : sameElements as bs = true ↔ ∀ r, as.count r = bs.count r := by
    rw [sameElements_iff_perm, List.perm_comm, List.perm_iff_count]
  exact ⟨sameElements_iff_perm, hcount, sameElements_comm as bs,
    fun _ h h' => sameElements_trans h h', fun _ _ hxs hys => sameElements_congr hxs hys⟩

/-- The row without fields is not the closing mark, and it counts as often as it is there. -/
example : sameElements [Item.row [], .endOfStream, .row []] [.row [], .row [], .endOfStream] = true
    ∧ sameElements [Item.row [], .endOfStream, .row []]
      [.endOfStream, .row [], .endOfStream] = false := by
  decide

end StreamQuery
