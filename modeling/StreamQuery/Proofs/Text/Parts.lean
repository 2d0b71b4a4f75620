/-
Trimmed texts and the parts between separators.

Blanks around a text do not matter to trimming, and what is left of a text after trimming is the
text with its outer blanks gone.  A text is cut in front of the first separator and behind it, and
its pieces are those between all its separators; so pieces without a separator are found again when
they were put together with one.  Where no blank is a separator, blanks at the ends of a text end up
at the ends of its first and last piece.
-/
import Mathlib
import StreamQuery.Text.Basic

namespace StreamQuery.Text

variable {sep : Char} {cs before after part text : List Char}

/-! ### Blanks -/

/-- A text with nothing but blanks on it. -/
def Blank (cs : List Char) : Prop :=
  ∀ c ∈ cs, isBlank c = true

/-- A part with blanks around it. -/
def Padded (part text : List Char) : Prop :=
  ∃ before after, Blank before ∧ Blank after ∧ text = before ++ part ++ after

theorem not_mem_of_blank (hsep : isBlank sep = false) (h : Blank cs) : sep ∉ cs := by
  intro hmem
  rw [h sep hmem] at hsep
  cases hsep

theorem trim_eq_rdropWhile (cs : List Char) :
    trim cs = (cs.dropWhile isBlank).rdropWhile isBlank := rfl

theorem trim_blank_append (h : Blank before) (cs : List Char) : trim (before ++ cs) = trim cs := by
  unfold trim
  rw [List.dropWhile_append_of_pos h]

theorem rdropWhile_append_blank (h : Blank after) (cs : List Char) :
    (cs ++ after).rdropWhile isBlank = cs.rdropWhile isBlank := by
  have hreverse : ∀ c ∈ after.reverse, isBlank c = true := fun c hc =>
    h c (List.mem_reverse.mp hc)
  unfold List.rdropWhile
  rw [List.reverse_append, List.dropWhile_append_of_pos hreverse]

theorem trim_append_blank (h : Blank after) (cs : List Char) : trim (cs ++ after) = trim cs := by
  rw [trim_eq_rdropWhile, trim_eq_rdropWhile, List.dropWhile_append]
  split
  · rename_i hempty
    rw [List.isEmpty_iff.mp hempty, List.dropWhile_eq_nil_iff.mpr h]
  · exact rdropWhile_append_blank h _

theorem Padded.trim (h : Padded part text) : trim text = trim part := by
  obtain ⟨before, after, hbefore, hafter, rfl⟩ := h
  rw [trim_append_blank hafter, trim_blank_append hbefore]

/-- A text is what is left of it after trimming, with blanks around it. -/
theorem padded_trim (cs : List Char) : Padded (Text.trim cs) cs := by
  refine ⟨cs.takeWhile isBlank, (cs.dropWhile isBlank).rtakeWhile isBlank,
    fun c => List.mem_takeWhile_imp, fun c => List.mem_rtakeWhile_imp, ?_⟩
  rw [trim_eq_rdropWhile, List.append_assoc, List.rdropWhile_append_rtakeWhile,
    List.takeWhile_append_dropWhile]

theorem trim_eq_nil : trim cs = [] ↔ Blank cs := by
  constructor
  · intro h
    obtain ⟨before, after, hbefore, hafter, hcs⟩ := padded_trim cs
    rw [h, List.append_nil] at hcs
    rw [hcs]
    exact List.forall_mem_append.mpr ⟨hbefore, hafter⟩
  · intro h
    rw [trim_eq_rdropWhile, List.dropWhile_eq_nil_iff.mpr h]
    rfl

/-- Nothing is dropped from a text with no blank at either end. -/
theorem trim_eq_self (hfirst : ∃ c rest, cs = c :: rest ∧ isBlank c = false)
    (hlast : ∃ rest c, cs = rest ++ [c] ∧ isBlank c = false) : trim cs = cs := by
  have hfront : cs.dropWhile isBlank = cs := by
    obtain ⟨c, rest, rfl, hc⟩ := hfirst
    exact List.dropWhile_cons_of_neg (by simp [hc])
  rw [trim_eq_rdropWhile, hfront]
  obtain ⟨rest, c, rfl, hc⟩ := hlast
  exact List.rdropWhile_concat_neg _ _ _ (by simp [hc])

theorem Padded.not_mem (hsep : isBlank sep = false) (hpart : sep ∉ part) (h : Padded part text) :
    sep ∉ text := by
  obtain ⟨before, after, hbefore, hafter, rfl⟩ := h
  simp [not_mem_of_blank hsep hbefore, not_mem_of_blank hsep hafter, hpart]

/-! ### Cutting at the first separator -/

theorem cut_append (h : sep ∉ before) (after : List Char) :
    cut sep (before ++ sep :: after) = (before, some after) := by
  induction before with
  | nil => simp [cut]
  | cons c before ih =>
      rw [List.mem_cons, not_or] at h
      rw [List.cons_append, cut, if_neg (Ne.symm h.1), ih h.2]

theorem cut_of_not_mem (h : sep ∉ cs) : cut sep cs = (cs, none) := by
  induction cs with
  | nil => rfl
  | cons c cs ih =>
      rw [List.mem_cons, not_or] at h
      rw [cut, if_neg (Ne.symm h.1), ih h.2]

/-! ### Cutting at every separator -/

theorem pieces_eq_splitOn (sep : Char) (cs : List Char) : pieces sep cs = cs.splitOn sep := by
  induction cs with
  | nil => rfl
  | cons c cs ih =>
      rw [pieces, ih, List.splitOn_cons_eq_if_modifyHead]
      by_cases hc : c = sep
      · simp [hc]
      · cases hpieces : cs.splitOn sep with
        | nil => exact absurd hpieces (List.splitOn_ne_nil _ _)
        | cons p ps => simp [hc]

theorem pieces_intercalate {ps : List (List Char)} (h : ∀ p ∈ ps, sep ∉ p) (hne : ps ≠ []) :
    pieces sep ([sep].intercalate ps) = ps := by
  rw [pieces_eq_splitOn, List.splitOn_intercalate sep h hne]

theorem pieces_ne_nil (sep : Char) (cs : List Char) : pieces sep cs ≠ [] := by
  rw [pieces_eq_splitOn]
  exact List.splitOn_ne_nil _ _

theorem pieces_of_not_mem (h : sep ∉ cs) : pieces sep cs = [cs] := by
  rw [pieces_eq_splitOn, List.splitOn_eq_singleton h]

/-- What is put in front of a text stands in front of its first piece. -/
theorem pieces_append_left {p : List Char} {ps : List (List Char)} (h : sep ∉ before)
    (hcs : pieces sep cs = p :: ps) : pieces sep (before ++ cs) = (before ++ p) :: ps := by
  induction before with
  | nil => exact hcs
  | cons c before ih =>
      rw [List.mem_cons, not_or] at h
      rw [List.cons_append, pieces, if_neg (Ne.symm h.1), ih h.2]
      rfl

/-- What is put behind a text stands behind its last piece. -/
theorem pieces_append_right (h : sep ∉ after) : ∀ cs : List Char,
    ∃ ps p, pieces sep cs = ps ++ [p] ∧ pieces sep (cs ++ after) = ps ++ [p ++ after] := by
  intro cs
  induction cs with
  | nil => exact ⟨[], [], rfl, pieces_of_not_mem h⟩
  | cons c cs ih =>
      obtain ⟨ps, p, hcs, hafter⟩ := ih
      rw [List.cons_append, pieces, pieces, hcs, hafter]
      by_cases hc : c = sep
      · exact ⟨[] :: ps, p, by simp [hc], by simp [hc]⟩
      · cases ps with
        | nil => exact ⟨[], c :: p, by simp [hc], by simp [hc]⟩
        | cons q ps => exact ⟨(c :: q) :: ps, p, by simp [hc], by simp [hc]⟩

/-- All pieces are blank if nothing but blanks stands between the separators. -/
theorem blank_pieces : (∀ p ∈ pieces sep cs, Blank p) ↔ ∀ c ∈ cs, c = sep ∨ isBlank c = true := by
  induction cs with
  | nil => simp [pieces, Blank]
  | cons c cs ih =>
      rw [pieces, List.forall_mem_cons, ← ih]
      by_cases hc : c = sep
      · simp [hc, Blank]
      · cases hpieces : pieces sep cs with
        | nil => exact absurd hpieces (pieces_ne_nil sep cs)
        | cons p ps => simp [hc, Blank, and_assoc]

end StreamQuery.Text
