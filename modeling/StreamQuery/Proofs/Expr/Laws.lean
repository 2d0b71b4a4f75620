/-
Laws of conditions.

A connective stops at the operand that decides it and keeps in mind whether one before it was
unknown.  What comes out does not depend on where the operands stand: `Truth.joinAll_eq` says that
only matters which truth values are among them.  So operands may be permuted and repeated, a group
of them may be joined first, and negation turns the one connective into the other.

Every truth value is true, false or unknown, and a condition, its negation and its test for null are
true of one each.  Three filters with these conditions send every row that comes exactly once.
-/
import Mathlib.Data.List.Perm.Basic
import StreamQuery.Operator.Trial
import StreamQuery.Proofs.Expr.Evaluation

namespace StreamQuery

/-! ### Kleene's connectives -/

namespace Truth

variable {b : Bool}

theorem join_assoc (b : Bool) (t u v : Truth) : join b (join b t u) v = join b t (join b u v) := by
  cases b <;> cases t <;> cases u <;> cases v <;> rfl

theorem not_join (b : Bool) (t u : Truth) : (join b t u).not = join (!b) t.not u.not := by
  cases b <;> cases t <;> cases u <;> rfl

theorem not_ofBool (b : Bool) : (ofBool b).not = ofBool !b := by
  cases b <;> rfl

/-- **Only matters which truth values are joined**: the deciding one if it is among them, else the
unknown, else the one that decides nothing. -/
theorem joinAll_eq (b : Bool) (ts : List Truth) : joinAll b ts
    = if ofBool b ∈ ts then ofBool b else if unknown ∈ ts then unknown else ofBool !b := by
  induction ts with
  | nil => simp [joinAll]
  | cons t ts ih =>
      rw [joinAll, List.foldr_cons, ← joinAll, ih]
      by_cases hdeciding : ofBool b ∈ ts
      · by_cases ht : t = ofBool b
        · simp [hdeciding, ht, join_ofBool]
        · obtain rfl | rfl := eq_of_ne_deciding ht
          · cases b <;> simp [hdeciding] <;> rfl
          · simp [hdeciding, join_neutral]
      · by_cases ht : t = ofBool b
        · simp [ht, join_ofBool]
        · have hmem : ofBool b ∉ t :: ts := by simp [hdeciding, Ne.symm ht]
          rw [if_neg hdeciding, if_neg hmem]
          obtain rfl | rfl := eq_of_ne_deciding ht
          · rw [if_pos List.mem_cons_self]
            by_cases hunknown : unknown ∈ ts
            · cases b <;> simp [hunknown] <;> rfl
            · cases b <;> simp [hunknown] <;> rfl
          · rw [join_neutral]
            have hne : unknown ≠ ofBool !b := by cases b <;> decide
            simp [hne]

/-- Lists with the same truth values in them have the same join. -/
theorem joinAll_congr {ts us : List Truth} (h : ∀ t, t ∈ ts ↔ t ∈ us) :
    joinAll b ts = joinAll b us := by
  simp only [joinAll_eq, h]

/-- A group of truth values may be joined first. -/
theorem joinAll_group (b : Bool) (group rest : List Truth) :
    joinAll b (joinAll b group :: rest) = joinAll b (group ++ rest) := by
  induction group with
  | nil => exact join_neutral b _
  | cons t group ih =>
      calc joinAll b (joinAll b (t :: group) :: rest)
          = join b (join b t (joinAll b group)) (joinAll b rest) := rfl
        _ = join b t (joinAll b (joinAll b group :: rest)) := join_assoc b _ _ _
        _ = join b t (joinAll b (group ++ rest)) := by rw [ih]
        _ = joinAll b (t :: group ++ rest) := rfl

/-- **The opposite of a join is the other join of the opposites.** -/
theorem not_joinAll (b : Bool) (ts : List Truth) :
    (joinAll b ts).not = joinAll (!b) (ts.map not) := by
  induction ts with
  | nil => simp [joinAll, not_ofBool]
  | cons t ts ih =>
      calc (joinAll b (t :: ts)).not
          = (join b t (joinAll b ts)).not := rfl
        _ = join (!b) t.not (joinAll b ts).not := not_join b _ _
        _ = join (!b) t.not (joinAll (!b) (ts.map not)) := by rw [ih]
        _ = joinAll (!b) ((t :: ts).map not) := rfl

end Truth

/-- The other connective. -/
def Op.dual : Op → Op
  | .and => .or
  | .or => .and
  | op => op

theorem Op.deciding?_dual {op : Op} {b : Bool} (h : op.deciding? = some b) :
    op.dual.deciding? = some !b := by
  cases op <;> simp_all [Op.deciding?, Op.dual]

namespace Expr

variable {input : Option Schema} {row : Row} {es : List Expr} {op : Op} {b : Bool}
  {truth : Expr → Truth}

/-- Operands that are the same up to order and repetition have the same join. -/
theorem HasValue.connective_congr {fs : List Expr} (hop : op.deciding? = some b) (hne : es ≠ [])
    (hes : ∀ e ∈ es, e.HasValue input row (truth e).value) (hsame : ∀ e, e ∈ fs ↔ e ∈ es) :
    (Expr.call op fs).HasValue input row (Truth.joinAll b (es.map truth)).value := by
  have hfs : fs ≠ [] := by
    obtain ⟨e, he⟩ := List.exists_mem_of_ne_nil es hne
    exact List.ne_nil_of_mem ((hsame e).mpr he)
  have hjoin : Truth.joinAll b (fs.map truth) = Truth.joinAll b (es.map truth) :=
    Truth.joinAll_congr fun t => by simp [hsame]
  rw [← hjoin]
  refine .connective hop hfs ?_
  rw [List.forall₂_map_right_iff, List.forall₂_same]
  exact fun e he => hes e ((hsame e).mp he)

/-- A group of operands may be replaced by one operand that joins them. -/
theorem HasValue.connective_group {group rest fs : List Expr} (hop : op.deciding? = some b)
    (hes : ∀ e ∈ es, e.HasValue input row (truth e).value) (hgroup : group ≠ [])
    (hparts : es.Perm (group ++ rest)) (hfs : fs.Perm (Expr.call op group :: rest)) :
    (Expr.call op fs).HasValue input row (Truth.joinAll b (es.map truth)).value := by
  have hmem : ∀ e, e ∈ group ∨ e ∈ rest → e.HasValue input row (truth e).value :=
    fun e he => hes e (hparts.mem_iff.mpr (List.mem_append.mpr he))
  have hnested : (Expr.call op group).HasValue input row
      (Truth.joinAll b (group.map truth)).value :=
    .connective_congr hop hgroup (fun e he => hmem e (.inl he)) fun _ => Iff.rfl
  have hrest : List.Forall₂ (fun e t => e.HasValue input row (Truth.value t)) rest
      (rest.map truth) := by
    rw [List.forall₂_map_right_iff, List.forall₂_same]
    exact fun e he => hmem e (.inr he)
  have hall : List.Forall₂ (fun e t => e.HasValue input row (Truth.value t))
      (Expr.call op group :: rest) (Truth.joinAll b (group.map truth) :: rest.map truth) :=
    .cons hnested hrest
  -- the truth values of the new operands, in the order in which these stand
  obtain ⟨ts, hts, hperm⟩ := List.perm_comp_forall₂ hfs hall
  have hjoin : Truth.joinAll b ts = Truth.joinAll b (es.map truth) :=
    calc Truth.joinAll b ts
        = Truth.joinAll b (Truth.joinAll b (group.map truth) :: rest.map truth) :=
          Truth.joinAll_congr fun _ => hperm.mem_iff
      _ = Truth.joinAll b (group.map truth ++ rest.map truth) := Truth.joinAll_group b _ _
      _ = Truth.joinAll b (es.map truth) :=
          Truth.joinAll_congr fun t => by
            rw [← List.map_append]
            exact (hparts.map truth).symm.mem_iff
  rw [← hjoin]
  exact .connective hop (by rintro rfl; simpa using hfs.length_eq) hts

/-- The other connective of the negated operands has the opposite value. -/
theorem HasValue.connective_dual (hop : op.deciding? = some b) (hne : es ≠ [])
    (hes : ∀ e ∈ es, e.HasValue input row (truth e).value) :
    (Expr.call op.dual (es.map fun e => .call .not [e])).HasValue input row
      (Truth.joinAll b (es.map truth)).not.value := by
  rw [Truth.not_joinAll]
  refine .connective (Op.deciding?_dual hop) (by simpa using hne) ?_
  rw [List.forall₂_map_left_iff, List.map_map, List.forall₂_map_right_iff, List.forall₂_same]
  exact fun e he => (hes e he).not

end Expr

/-! ### Filters -/

/-- All rows of one input with its closing mark, and a consumer that stays. -/
def Trial.Script.whole (rows : List Row) : Trial.Script :=
  { inputs := [rows.map Item.row ++ [.endOfStream]], take := none, cancelled := false }

/-- What a filter does with the rows of an input that is not cut off. -/
def Scalar.filtered (condition : Scalar) (rows : List Row) : Trial.Report :=
  Trial.run (Operator.filter condition).stage (.whole rows)

namespace Trial

variable {s : Stage} {script rest : Script} {sent : List Row}

theorem runFrom_receive {input : Nat} {item : Item} (hwant : s.want = .receive input)
    (hruns : script.cancelled = false) (hnext : script.next? input = some (item, rest)) :
    runFrom s script sent = runFrom (s.accept item) rest sent := by
  rw [runFrom]
  split
  · simp_all
  · rename_i other hother
    obtain rfl : input = other := by simpa [hwant] using hother
    rw [if_neg (by simp [hruns])]
    split
    · simp_all
    · rename_i item' rest' hnext'
      obtain ⟨rfl, rfl⟩ : item = item' ∧ rest = rest' := by simpa [hnext] using hnext'
      rfl
  · simp_all
  · simp_all

theorem runFrom_send {row : Row} {after : Stage} (hwant : s.want = .send row after)
    (hruns : script.cancelled = false) (hstays : script.take = none) :
    runFrom s script sent = runFrom after script (row :: sent) := by
  rw [runFrom]
  split
  · simp_all
  · simp_all
  · rename_i row' after' hother
    obtain ⟨rfl, rfl⟩ : row = row' ∧ after = after' := by simpa [hwant] using hother
    rw [if_neg (by simp [hruns])]
    split
    · simp_all
    · obtain ⟨inputs, take, cancelled⟩ := script
      simp_all
  · simp_all

theorem runFrom_close (hwant : s.want = .close) (hruns : script.cancelled = false)
    (hstays : script.take = none) : runFrom s script sent = ⟨sent.reverse, .ok⟩ := by
  rw [runFrom]
  split <;> simp_all

/-- A filter that wants to read sends the rows that it selects, and closes its output. -/
theorem runFrom_filter {condition : Scalar} {rows : List Row} :
    ∀ {kept : List Row} {held : Option Row} {sent : List Row},
      (Stage.filter condition held).want = .receive 0 → condition.select rows = .ok kept →
      runFrom (.filter condition held) (.whole rows) sent = ⟨sent.reverse ++ kept, .ok⟩ := by
  induction rows with
  | nil =>
      intro kept held sent hwant hkept
      obtain rfl : kept = [] := by simpa [Scalar.select] using hkept.symm
      have hnext : (Script.whole []).next? 0
          = some (.endOfStream, { Script.whole [] with inputs := [[]] }) := rfl
      rw [runFrom_receive hwant rfl hnext, runFrom_close rfl rfl rfl, List.append_nil]
  | cons r rows ih =>
      intro kept held sent hwant hkept
      have hnext : (Script.whole (r :: rows)).next? 0 = some (.row r, Script.whole rows) := rfl
      rw [runFrom_receive hwant rfl hnext, Stage.accept]
      cases htrue : condition.isTrue r with
      | error d =>
          rw [Scalar.select_cons_of_error htrue] at hkept
          cases hkept
      | ok b =>
          cases b with
          | false =>
              rw [Scalar.select_cons_of_false htrue] at hkept
              exact ih (by rw [Stage.want, htrue]) hkept
          | true =>
              rw [Scalar.select_cons_of_true htrue] at hkept
              cases hrest : condition.select rows with
              | error d =>
                  rw [hrest] at hkept
                  cases hkept
              | ok others =>
                  obtain rfl : r :: others = kept := by
                    simpa [hrest, Except.map] using hkept
                  have hsend : (Stage.filter condition (some r)).want
                      = .send r (.filter condition none) := by rw [Stage.want, htrue]
                  rw [runFrom_send hsend rfl rfl, ih rfl hrest]
                  simp

end Trial

namespace Scalar

theorem isTrue_of_truth {s : Scalar} {r : Row} {t : Truth} (h : s.eval r = .ok t.value) :
    s.isTrue r = .ok (decide (t = .yes)) := by
  rw [isTrue, h]
  cases t <;> rfl

/-- What a condition selects of rows on which it has a truth value. -/
theorem select_of_truths {condition : Scalar} {truth : Row → Truth} {rows : List Row}
    (h : ∀ r ∈ rows, condition.eval r = .ok (truth r).value) :
    condition.select rows = .ok (rows.filter fun r => truth r = .yes) := by
  induction rows with
  | nil => rfl
  | cons r rows ih =>
      obtain ⟨hr, hrows⟩ := List.forall_mem_cons.mp h
      have htrue : condition.isTrue r = .ok (decide (truth r = .yes)) := isTrue_of_truth hr
      by_cases hyes : truth r = .yes
      · rw [select_cons_of_true (by simpa [hyes] using htrue), ih hrows]
        simp [hyes, Except.map]
      · rw [select_cons_of_false (by simpa [hyes] using htrue), ih hrows]
        simp [hyes]

theorem filtered_of_truths {condition : Scalar} {truth : Row → Truth} {rows : List Row}
    (h : ∀ r ∈ rows, condition.eval r = .ok (truth r).value) :
    condition.filtered rows = ⟨rows.filter fun r => truth r = .yes, .ok⟩ :=
  Trial.runFrom_filter rfl (select_of_truths h)

end Scalar

/-- Every row has one of the three truth values. -/
theorem perm_of_truths (truth : Row → Truth) (rows : List Row) :
    rows.Perm (rows.filter (fun r => truth r = .yes) ++ rows.filter (fun r => truth r = .no)
      ++ rows.filter fun r => truth r = .unknown) := by
  induction rows with
  | nil => rfl
  | cons r rows ih =>
      cases h : truth r with
      | yes => simpa [h] using ih
      | no =>
          simp only [h, List.filter_cons, reduceCtorEq, decide_true, decide_false, if_true,
            Bool.false_eq_true, if_false]
          exact (ih.cons r).trans (List.perm_middle.symm.append_right _)
      | unknown =>
          simp only [h, List.filter_cons, reduceCtorEq, decide_true, decide_false, if_true,
            Bool.false_eq_true, if_false]
          exact (ih.cons r).trans List.perm_middle.symm

namespace Scalar

variable {input : Option Schema} {c : Expr} {s negated test : Scalar} {r : Row} {t : Truth}

theorem eval_not (hs : compile input c = .ok s)
    (hnegated : compile input (.call .not [c]) = .ok negated) (h : s.eval r = .ok t.value) :
    negated.eval r = .ok t.not.value := by
  obtain ⟨other, hother, hvalue⟩ := Expr.HasValue.not ⟨s, hs, h⟩
  obtain rfl : negated = other := by simpa [hnegated] using hother
  exact hvalue

theorem eval_isNull (hs : compile input c = .ok s)
    (htest : compile input (.call .isNull [c]) = .ok test) (h : s.eval r = .ok t.value) :
    test.eval r = .ok (Truth.ofBool t.value.isNull).value := by
  obtain ⟨other, hother, hvalue⟩ := Expr.HasValue.isNull ⟨s, hs, h⟩
  obtain rfl : test = other := by simpa [htest] using hother
  rw [Truth.value_ofBool]
  exact hvalue

/-- **The laws of conditions.**  Where every operand of a conjunction or a disjunction is true, false
or null on a row, its value there stays the same when operands are permuted or repeated and when a
group of them is replaced by one nested operand, and its negation is the other connective of the
negated operands.  A condition, its negation and its test for null are true of one each of the rows
on which the condition is true, false or null; filters with the three send each of these rows once. -/
theorem boolean_laws (input : Option Schema) :
    (∀ (row : Row) (es : List Expr), es ≠ [] →
      (∀ e ∈ es, ∃ t : Truth, e.HasValue input row t.value) →
      ∀ op, op = .and ∨ op = .or → ∃ t : Truth,
        (Expr.call op es).HasValue input row t.value ∧
        (∀ fs, (∀ e, e ∈ fs ↔ e ∈ es) → (Expr.call op fs).HasValue input row t.value) ∧
        (∀ group rest fs, group ≠ [] → es.Perm (group ++ rest) →
          fs.Perm (.call op group :: rest) → (Expr.call op fs).HasValue input row t.value) ∧
        (Expr.call .not [.call op es]).HasValue input row t.not.value ∧
        (Expr.call op.dual (es.map fun e => .call .not [e])).HasValue input row t.not.value) ∧
    ∀ c s, compile input c = .ok s → ∃ negated test,
      compile input (.call .not [c]) = .ok negated ∧
      compile input (.call .isNull [c]) = .ok test ∧
      ∀ rows : List Row, (∀ r ∈ rows, ∃ t : Truth, s.eval r = .ok t.value) →
        (∀ r ∈ rows, ∃ x y z, s.isTrue r = .ok x ∧ negated.isTrue r = .ok y ∧
          test.isTrue r = .ok z ∧ [x, y, z].count true = 1) ∧
        ∃ xs ys zs, s.filtered rows = ⟨xs, .ok⟩ ∧ negated.filtered rows = ⟨ys, .ok⟩ ∧
          test.filtered rows = ⟨zs, .ok⟩ ∧ rows.Perm (xs ++ ys ++ zs) := by
  refine ⟨?_, ?_⟩
  · intro row es hne hes op hop
    choose! truth htruth using hes
    obtain ⟨b, hb⟩ : ∃ b, op.deciding? = some b := by
      obtain rfl | rfl := hop
      · exact ⟨false, rfl⟩
      · exact ⟨true, rfl⟩
    have hcall : (Expr.call op es).HasValue input row (Truth.joinAll b (es.map truth)).value :=
      .connective_congr hb hne htruth fun _ => Iff.rfl
    exact ⟨_, hcall, fun fs => .connective_congr hb hne htruth,
      fun group rest fs => .connective_group hb htruth, hcall.not,
      .connective_dual hb hne htruth⟩
  · intro c s hs
    obtain ⟨negated, hnegated⟩ : ∃ n, compile input (.call .not [c]) = .ok n :=
      compile_call_ok_iff.mpr ⟨rfl, by simpa using ⟨s, hs⟩⟩
    obtain ⟨test, htest⟩ : ∃ n, compile input (.call .isNull [c]) = .ok n :=
      compile_call_ok_iff.mpr ⟨rfl, by simpa using ⟨s, hs⟩⟩
    refine ⟨negated, test, hnegated, htest, fun rows hrows => ⟨fun r hr => ?_, ?_⟩⟩
    · obtain ⟨t, ht⟩ := hrows r hr
      refine ⟨_, _, _, isTrue_of_truth ht, isTrue_of_truth (eval_not hs hnegated ht),
        isTrue_of_truth (eval_isNull hs htest ht), ?_⟩
      cases t <;> rfl
    · choose! truth htruth using hrows
      refine ⟨_, _, _, filtered_of_truths htruth,
        filtered_of_truths fun r hr => eval_not hs hnegated (htruth r hr),
        filtered_of_truths fun r hr => eval_isNull hs htest (htruth r hr), ?_⟩
      have hno : ∀ r, (truth r).not = .yes ↔ truth r = .no := by
        intro r
        cases truth r <;> decide
      have hunknown : ∀ r, Truth.ofBool (truth r).value.isNull = .yes ↔ truth r = .unknown := by
        intro r
        cases truth r <;> decide
      simp only [hno, hunknown]
      exact perm_of_truths truth rows

/-- A conjunction of an unknown operand and a column that is false, with the operands repeated and
with one of them nested; and the three filters on rows of that column. -/
theorem boolean_laws_of_column :
    (∃ t : Truth,
      (Expr.call .and [.literal .null, .inputRef 0]).HasValue none [.bool false] t.value ∧
      (Expr.call .and [.inputRef 0, .literal .null, .inputRef 0]).HasValue none [.bool false]
        t.value ∧
      (Expr.call .and [.literal .null, .call .and [.inputRef 0]]).HasValue none [.bool false]
        t.value ∧
      (Expr.call .or [.call .not [.literal .null], .call .not [.inputRef 0]]).HasValue none
        [.bool false] t.not.value) ∧
    ∃ s negated test, compile none (.inputRef 0) = .ok s ∧
      compile none (.call .not [.inputRef 0]) = .ok negated ∧
      compile none (.call .isNull [.inputRef 0]) = .ok test ∧
      ∃ xs ys zs, s.filtered [[.bool true], [.null], [.bool false], [.bool true]] = ⟨xs, .ok⟩ ∧
        negated.filtered [[.bool true], [.null], [.bool false], [.bool true]] = ⟨ys, .ok⟩ ∧
        test.filtered [[.bool true], [.null], [.bool false], [.bool true]] = ⟨zs, .ok⟩ ∧
        List.Perm [[.bool true], [.null], [.bool false], [.bool true]] (xs ++ ys ++ zs) := by
  obtain ⟨hoperands, hfilters⟩ := boolean_laws none
  have hnull : (Expr.literal .null).HasValue none [.bool false] (Truth.value .unknown) :=
    ⟨_, rfl, rfl⟩
  have hcolumn : (Expr.inputRef 0).HasValue none [.bool false] (Truth.value .no) :=
    ⟨_, rfl, rfl⟩
  obtain ⟨t, hand, hsame, hgroup, -, hdual⟩ := hoperands [.bool false]
    [.literal .null, .inputRef 0] (by simp) (by simpa using ⟨⟨_, hnull⟩, ⟨_, hcolumn⟩⟩)
    .and (.inl rfl)
  obtain ⟨negated, test, hnegated, htest, hrows⟩ := hfilters (.inputRef 0) _ rfl
  refine ⟨⟨t, hand, hsame _ ?_, ?_, hdual⟩, _, negated, test, rfl, hnegated, htest,
    (hrows _ ?_).2⟩
  · intro e
    simp only [List.mem_cons, List.not_mem_nil, or_false]
    tauto
  · exact hgroup [.inputRef 0] [.literal .null] _ (by simp) (.swap _ _ _) (.swap _ _ _)
  · simp only [List.forall_mem_cons]
    exact ⟨⟨.yes, rfl⟩, ⟨.unknown, rfl⟩, ⟨.no, rfl⟩, ⟨.yes, rfl⟩, by simp⟩

end Scalar

end StreamQuery
