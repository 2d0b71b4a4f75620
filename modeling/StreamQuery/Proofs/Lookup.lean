/-
Values found by a key.

Maps are kept as lists of entries, and the first entry of a key is the one that is found.  Where no
key comes twice the order of the entries does not matter.
-/
import Mathlib.Data.List.Nodup

namespace StreamQuery.Lookup

variable {α β : Type} [DecidableEq α] {entries : List (α × β)} {key : α} {value : β}

theorem mem (h : entries.lookup key = some value) : (key, value) ∈ entries := by
  obtain ⟨before, after, hsplit, -⟩ := List.lookup_eq_some_iff.mp h
  rw [hsplit]
  simp

theorem mem_keys (h : entries.lookup key = some value) : key ∈ entries.map Prod.fst :=
  List.mem_map_of_mem (mem h)

theorem ne_of_eq_none {entry : α × β} (h : entries.lookup key = none) (hentry : entry ∈ entries) :
    entry.1 ≠ key := by
  rintro rfl
  have hnot := List.lookup_eq_none_iff.mp h entry hentry
  simp at hnot

theorem exists_of_mem_keys (h : key ∈ entries.map Prod.fst) :
    ∃ value, entries.lookup key = some value := by
  cases hfound : entries.lookup key with
  | some value => exact ⟨value, rfl⟩
  | none =>
      obtain ⟨entry, hentry, hkey⟩ := List.mem_map.mp h
      exact absurd hkey (ne_of_eq_none hfound hentry)

/-- Where no key comes twice, every entry is found. -/
theorem eq_some_iff_mem (hkeys : (entries.map Prod.fst).Nodup) :
    entries.lookup key = some value ↔ (key, value) ∈ entries := by
  refine ⟨mem, fun h => ?_⟩
  obtain ⟨other, hother⟩ := exists_of_mem_keys (List.mem_map_of_mem h)
  have hsame := List.inj_on_of_nodup_map hkeys (mem hother) h rfl
  rw [hother, (Prod.mk.inj hsame).2]

theorem cons (other : α) (value : β) (entries : List (α × β)) (key : α) :
    ((other, value) :: entries).lookup key
      = if key = other then some value else entries.lookup key := by
  rw [List.lookup_cons]
  by_cases hsame : key = other
  · simp [hsame]
  · simp [hsame, beq_eq_false_iff_ne.mpr hsame]

end StreamQuery.Lookup
