/-
What a stage will still send.

A stage is described here by its future.  Given the rows that each input will
still deliver before its closing mark, `Stage.flow` is what the stage will still
send: the rows that come out before it cannot go on, and the defect if there is
one.  `Stage.rest` asks for all of it, the rows or the defect.
Every call moves a row across this description and changes nothing else of it: a
send takes the first row off the flow, an item that arrives is an item that the
input no longer has to deliver, and a stage that closes its output has nothing
left.  So whatever the order in which the calls of several operators happen, what
is still to come is known from where they stand.

Beside the rest stands what a stage has already seen: `Stage.exhausted` says from
which inputs the closing mark has come.  A stage closes its output only when it has
seen the closing mark of all of them.
-/
import Mathlib.Logic.Function.Basic
import StreamQuery.Operator.Basic

namespace StreamQuery

/-! ### Flows of rows -/

/-- Rows that come out one after the other, and the defect that stops them, if one does. -/
structure Flow where
  rows : List Row
  stop : Option RunDefect

namespace Flow

/-- The flow of nothing. -/
def empty : Flow := ⟨[], none⟩

/-- A flow with rows in front of it. -/
def behind (rows : List Row) (f : Flow) : Flow := ⟨rows ++ f.rows, f.stop⟩

/-- All rows of a flow, or the defect that stops it. -/
def whole (f : Flow) : Except RunDefect (List Row) :=
  match f.stop with
  | none => .ok f.rows
  | some d => .error d

/-- What becomes of rows or other things that are looked at one by one.  For each there is a row,
or nothing, or it stops the flow. -/
def through {α : Type} (judge : α → Except RunDefect (Option Row)) : List α → Flow
  | [] => empty
  | x :: xs =>
    match judge x with
    | .error d => ⟨[], some d⟩
    | .ok out => (through judge xs).behind out.toList

theorem behind_behind (rows rows' : List Row) (f : Flow) :
    (f.behind rows').behind rows = f.behind (rows ++ rows') := by
  simp [behind]

theorem behind_nil (f : Flow) : f.behind [] = f := rfl

theorem whole_behind (rows : List Row) (f : Flow) :
    (f.behind rows).whole = f.whole.map (rows ++ ·) := by
  unfold whole behind
  cases f.stop <;> rfl

section Through

variable {α : Type} {judge : α → Except RunDefect (Option Row)} {x : α}

theorem through_cons_of_ok {out : Option Row} (h : judge x = .ok out) (xs : List α) :
    through judge (x :: xs) = (through judge xs).behind out.toList := by
  rw [through, h]

theorem through_cons_of_error {d : RunDefect} (h : judge x = .error d) (xs : List α) :
    through judge (x :: xs) = ⟨[], some d⟩ := by
  rw [through, h]

end Through

end Flow

/-! ### The rows that operators compute from whole inputs -/

namespace Scalar

/-- A condition keeps the rows on which it is true. -/
def keep (condition : Scalar) (r : Row) : Except RunDefect (Option Row) :=
  match condition.isTrue r with
  | .error d => .error (.evaluation d)
  | .ok b => .ok (if b then some r else none)

/-- The row of the values of expressions on a row. -/
def fields (exprs : List Scalar) (r : Row) : Except RunDefect (Option Row) :=
  match exprs.mapM fun e => e.eval r with
  | .error d => .error (.evaluation d)
  | .ok row => .ok (some row)

/-- The rows on which a condition is true, in order. -/
def select (condition : Scalar) : List Row → Except RunDefect (List Row)
  | [] => .ok []
  | r :: rows =>
    match condition.isTrue r with
    | .error d => .error (.evaluation d)
    | .ok true => (select condition rows).map (r :: ·)
    | .ok false => select condition rows

/-- For each row the row of the values of expressions on it. -/
def compute (exprs : List Scalar) : List Row → Except RunDefect (List Row)
  | [] => .ok []
  | r :: rows =>
    match exprs.mapM fun e => e.eval r with
    | .error d => .error (.evaluation d)
    | .ok row => (compute exprs rows).map (row :: ·)

variable {condition : Scalar} {r : Row}

theorem keep_of_true (h : condition.isTrue r = .ok true) : condition.keep r = .ok (some r) := by
  rw [keep, h]
  rfl

theorem keep_of_false (h : condition.isTrue r = .ok false) : condition.keep r = .ok none := by
  rw [keep, h]
  rfl

theorem keep_of_error {d : EvalDefect} (h : condition.isTrue r = .error d) :
    condition.keep r = .error (.evaluation d) := by
  rw [keep, h]

theorem select_cons_of_true (h : condition.isTrue r = .ok true) (rows : List Row) :
    condition.select (r :: rows) = (condition.select rows).map (r :: ·) := by
  rw [select, h]

theorem select_cons_of_false (h : condition.isTrue r = .ok false) (rows : List Row) :
    condition.select (r :: rows) = condition.select rows := by
  rw [select, h]

theorem select_cons_of_error {d : EvalDefect} (h : condition.isTrue r = .error d)
    (rows : List Row) : condition.select (r :: rows) = .error (.evaluation d) := by
  rw [select, h]

theorem select_eq (condition : Scalar) (rows : List Row) :
    condition.select rows = (Flow.through condition.keep rows).whole := by
  induction rows with
  | nil => rfl
  | cons r rows ih =>
      cases h : condition.isTrue r with
      | error d =>
          rw [select_cons_of_error h, Flow.through_cons_of_error (keep_of_error h)]
          rfl
      | ok b =>
          cases b with
          | true =>
              rw [select_cons_of_true h, Flow.through_cons_of_ok (keep_of_true h),
                Flow.whole_behind, ih]
              rfl
          | false =>
              rw [select_cons_of_false h, Flow.through_cons_of_ok (keep_of_false h), ih]
              rfl

/-- A condition that selects no rows has no value on one of them. -/
theorem select_eq_error {rows : List Row} {d : RunDefect} (h : condition.select rows = .error d) :
    ∃ e, d = .evaluation e := by
  induction rows with
  | nil => cases h
  | cons r rows ih =>
      rw [select] at h
      cases hr : condition.isTrue r with
      | error e =>
          rw [hr] at h
          cases h
          exact ⟨e, rfl⟩
      | ok b =>
          rw [hr] at h
          cases hrest : condition.select rows with
          | error e =>
              rw [hrest] at h
              cases b <;> cases h <;> exact ih hrest
          | ok kept =>
              rw [hrest] at h
              cases b <;> cases h

/-- Expressions that compute no rows have no value on one of those that they are given. -/
theorem compute_eq_error {exprs : List Scalar} {rows : List Row} {d : RunDefect}
    (h : compute exprs rows = .error d) : ∃ e, d = .evaluation e := by
  induction rows with
  | nil => cases h
  | cons r rows ih =>
      rw [compute] at h
      cases hr : exprs.mapM fun e => e.eval r with
      | error e =>
          rw [hr] at h
          cases h
          exact ⟨e, rfl⟩
      | ok row =>
          rw [hr] at h
          cases hrest : compute exprs rows with
          | error e =>
              rw [hrest] at h
              cases h
              exact ih hrest
          | ok computed =>
              rw [hrest] at h
              cases h

theorem compute_eq (exprs : List Scalar) (rows : List Row) :
    compute exprs rows = (Flow.through (fields exprs) rows).whole := by
  induction rows with
  | nil => rfl
  | cons r rows ih =>
      rw [compute, Flow.through, fields]
      cases exprs.mapM fun e => e.eval r with
      | error d => rfl
      | ok row =>
          simp only [Except.map, Flow.whole_behind, ← ih]
          rfl

end Scalar

namespace Item

/-- A stored item is sent if it is a row. -/
def toSend : Item → Except RunDefect (Option Row)
  | .row r => .ok (some r)
  | .endOfStream => .error (.sending .closingMark)

/-- The rows that are stored, if they are all rows. -/
def sendAll : List Item → Except RunDefect (List Row)
  | [] => .ok []
  | .row r :: items => (sendAll items).map (r :: ·)
  | .endOfStream :: _ => .error (.sending .closingMark)

theorem sendAll_eq (items : List Item) : sendAll items = (Flow.through toSend items).whole := by
  induction items with
  | nil => rfl
  | cons item items ih =>
      cases item with
      | row r =>
          have hfirst : toSend (.row r) = .ok (some r) := rfl
          rw [sendAll, Flow.through_cons_of_ok hfirst, Flow.whole_behind, ih]
          rfl
      | endOfStream => rfl

theorem map_row_inj {rows rows' : List Row} : rows.map row = rows'.map row ↔ rows = rows' :=
  List.map_inj_right fun _ _ => Item.row.inj

/-- Rows that are stored are sent as they are, and then no mark was among them. -/
theorem sendAll_eq_ok {items : List Item} {rows : List Row} :
    sendAll items = .ok rows ↔ items = rows.map .row := by
  induction items generalizing rows with
  | nil => simp [sendAll, eq_comm]
  | cons item items ih =>
      cases item with
      | endOfStream => cases rows <;> simp [sendAll]
      | row r =>
          rw [sendAll]
          cases hrest : sendAll items with
          | error d =>
              refine iff_of_false nofun fun hall => ?_
              cases rows with
              | nil => cases hall
              | cons r' rows =>
                  obtain ⟨-, hitems⟩ := List.cons.inj hall
                  rw [ih.mpr hitems] at hrest
                  cases hrest
          | ok sent =>
              cases rows with
              | nil => exact iff_of_false nofun nofun
              | cons r' rows =>
                  simp [Except.map, ih.mp hrest, map_row_inj]

/-- Only a closing mark is not sent. -/
theorem sendAll_eq_error {items : List Item} {d : RunDefect} (h : sendAll items = .error d) :
    d = .sending .closingMark ∧ .endOfStream ∈ items := by
  induction items with
  | nil => cases h
  | cons item items ih =>
      cases item with
      | endOfStream =>
          cases h
          exact ⟨rfl, List.mem_cons_self⟩
      | row r =>
          rw [sendAll] at h
          cases hrest : sendAll items with
          | ok rows =>
              rw [hrest] at h
              cases h
          | error d' =>
              rw [hrest] at h
              cases h
              exact ⟨(ih hrest).1, List.mem_cons_of_mem _ (ih hrest).2⟩

end Item

/-- Each left row before each right row, left order first. -/
def Row.pairs (left right : List Row) : List Row :=
  left.flatMap fun l => right.map (l ++ ·)

theorem Row.pairs_cons (l : Row) (left right : List Row) :
    Row.pairs (l :: left) right = right.map (l ++ ·) ++ Row.pairs left right :=
  List.flatMap_cons

/-- The rows that come when `item` comes before `rows`; nothing comes behind the
closing mark. -/
def Item.before : Item → List Row → List Row
  | .row r, rows => r :: rows
  | .endOfStream, _ => []

namespace Stage

/-- What a stage will still send when its inputs still deliver these rows. -/
def flow (s : Stage) (ins : Nat → List Row) : Flow :=
  match s with
  | .values rows => .through Item.toSend rows
  | .filter condition row => .through condition.keep (row.toList ++ ins 0)
  | .project exprs row => .through (Scalar.fields exprs) (row.toList ++ ins 0)
  | .buffer condition right =>
    .through condition.keep (Row.pairs (ins 0) (right.reverse ++ ins 1))
  | .pair condition right left rest =>
    .through condition.keep (rest.map (left ++ ·) ++ Row.pairs (ins 0) right)
  | .relay false row => ⟨row.toList ++ (ins 0 ++ ins 1), none⟩
  | .relay true row => ⟨row.toList ++ ins 1, none⟩
  | .closing => .empty

/-- The rows that a stage will still send when its inputs still deliver these rows. -/
def rest (s : Stage) (ins : Nat → List Row) : Except RunDefect (List Row) :=
  match s with
  | .values rows => Item.sendAll rows
  | .filter condition row => condition.select (row.toList ++ ins 0)
  | .project exprs row => Scalar.compute exprs (row.toList ++ ins 0)
  | .buffer condition right => condition.select (Row.pairs (ins 0) (right.reverse ++ ins 1))
  | .pair condition right left rest =>
    condition.select (rest.map (left ++ ·) ++ Row.pairs (ins 0) right)
  | .relay false row => .ok (row.toList ++ (ins 0 ++ ins 1))
  | .relay true row => .ok (row.toList ++ ins 1)
  | .closing => .ok []

/-- The rest is the whole flow. -/
theorem rest_eq (s : Stage) (ins : Nat → List Row) : s.rest ins = (s.flow ins).whole := by
  cases s with
  | filter condition row => exact Scalar.select_eq _ _
  | project exprs row => exact Scalar.compute_eq _ _
  | buffer condition right => exact Scalar.select_eq _ _
  | pair condition right left remaining => exact Scalar.select_eq _ _
  | relay second row => cases second <;> rfl
  | values rows => exact Item.sendAll_eq rows
  | closing => rfl

/-! ### Pairing a left row with the right rows -/

section Pair

variable {condition : Scalar} {right : List Row} {left : Row} {rest : List Row}

theorem nextPair_ne_close : nextPair condition right left rest ≠ .close := by
  induction rest with
  | nil => simp [nextPair]
  | cons r rest ih =>
      rw [nextPair]
      split
      · simp
      · simp
      · exact ih

theorem through_of_nextPair_fail {d : RunDefect}
    (h : nextPair condition right left rest = .fail d) (tail : List Row) :
    Flow.through condition.keep (rest.map (left ++ ·) ++ tail) = ⟨[], some d⟩ := by
  induction rest with
  | nil => simp [nextPair] at h
  | cons r rest ih =>
      rw [nextPair] at h
      rw [List.map_cons, List.cons_append]
      split at h
      · rename_i e he
        cases h
        exact Flow.through_cons_of_error (Scalar.keep_of_error he) _
      · simp at h
      · rename_i hfalse
        rw [Flow.through_cons_of_ok (Scalar.keep_of_false hfalse)]
        exact ih h

theorem through_of_nextPair_receive {input : Nat}
    (h : nextPair condition right left rest = .receive input) (tail : List Row) :
    input = 0 ∧ Flow.through condition.keep (rest.map (left ++ ·) ++ tail)
      = Flow.through condition.keep tail := by
  induction rest with
  | nil =>
      simp only [nextPair, Want.receive.injEq] at h
      exact ⟨h.symm, rfl⟩
  | cons r rest ih =>
      rw [nextPair] at h
      rw [List.map_cons, List.cons_append]
      split at h
      · simp at h
      · simp at h
      · rename_i hfalse
        rw [Flow.through_cons_of_ok (Scalar.keep_of_false hfalse)]
        exact ih h

theorem through_of_nextPair_send {row : Row} {after : Stage}
    (h : nextPair condition right left rest = .send row after) :
    ∃ rest', after = .pair condition right left rest' ∧ ∀ tail,
      Flow.through condition.keep (rest.map (left ++ ·) ++ tail)
        = (Flow.through condition.keep (rest'.map (left ++ ·) ++ tail)).behind [row] := by
  induction rest with
  | nil => simp [nextPair] at h
  | cons r rest ih =>
      rw [nextPair] at h
      split at h
      · simp at h
      · rename_i htrue
        injection h with hrow hafter
        subst hrow
        refine ⟨rest, hafter.symm, ?_⟩
        intro tail
        rw [List.map_cons, List.cons_append, Flow.through_cons_of_ok (Scalar.keep_of_true htrue)]
        rfl
      · rename_i hfalse
        obtain ⟨rest', hafter, hflow⟩ := ih h
        refine ⟨rest', hafter, ?_⟩
        intro tail
        rw [List.map_cons, List.cons_append, Flow.through_cons_of_ok (Scalar.keep_of_false hfalse)]
        exact hflow tail

end Pair

/-! ### Calls move rows across the flow -/

variable {s after : Stage} {row : Row} {input : Nat}

/-- What cannot go on stops the flow at once. -/
theorem flow_of_want_fail {d : RunDefect} (h : s.want = .fail d) (ins : Nat → List Row) :
    s.flow ins = ⟨[], some d⟩ := by
  cases s with
  | values rows =>
      match rows with
      | [] => simp [want] at h
      | .row r :: rows => simp [want] at h
      | .endOfStream :: rows =>
          cases h
          rfl
  | filter condition held =>
      cases held with
      | none => simp [want] at h
      | some r =>
          simp only [want] at h
          split at h
          · rename_i e he
            cases h
            exact Flow.through_cons_of_error (Scalar.keep_of_error he) _
          · simp at h
          · simp at h
  | project exprs held =>
      cases held with
      | none => simp [want] at h
      | some r =>
          simp only [want] at h
          split at h
          · rename_i e he
            cases h
            have hfields : Scalar.fields exprs r = .error (.evaluation e) := by
              rw [Scalar.fields, he]
            exact Flow.through_cons_of_error hfields _
          · simp at h
  | buffer condition right => simp [want] at h
  | pair condition right left remaining =>
      exact through_of_nextPair_fail (by simpa [want] using h) _
  | relay second held => cases held <;> simp [want] at h
  | closing => simp [want] at h

/-- A stage that closes its output has nothing left to send. -/
theorem flow_of_want_close (h : s.want = .close) (ins : Nat → List Row) :
    s.flow ins = .empty := by
  cases s with
  | values rows =>
      match rows with
      | [] => rfl
      | .row r :: rows => simp [want] at h
      | .endOfStream :: rows => simp [want] at h
  | filter condition held =>
      cases held with
      | none => simp [want] at h
      | some r => simp only [want] at h; split at h <;> cases h
  | project exprs held =>
      cases held with
      | none => simp [want] at h
      | some r => simp only [want] at h; split at h <;> cases h
  | buffer condition right => simp [want] at h
  | pair condition right left remaining => exact absurd (by simpa [want] using h) nextPair_ne_close
  | relay second held => cases held <;> simp [want] at h
  | closing => rfl

/-- A send takes the first row off the flow. -/
theorem flow_of_want_send (h : s.want = .send row after) (ins : Nat → List Row) :
    s.flow ins = (after.flow ins).behind [row] := by
  cases s with
  | values rows =>
      match rows with
      | [] => simp [want] at h
      | .row r :: rows =>
          simp only [want, Want.send.injEq] at h
          obtain ⟨rfl, rfl⟩ := h
          rfl
      | .endOfStream :: rows => simp [want] at h
  | filter condition held =>
      cases held with
      | none => simp [want] at h
      | some r =>
          simp only [want] at h
          split at h
          · simp at h
          · rename_i htrue
            injection h with hrow hafter
            subst hrow hafter
            exact Flow.through_cons_of_ok (Scalar.keep_of_true htrue) _
          · simp at h
  | project exprs held =>
      cases held with
      | none => simp [want] at h
      | some r =>
          simp only [want] at h
          split at h
          · simp at h
          · rename_i values hvalues
            injection h with hrow hafter
            subst hrow hafter
            have hfields : Scalar.fields exprs r = .ok (some values) := by
              rw [Scalar.fields, hvalues]
            exact Flow.through_cons_of_ok hfields _
  | buffer condition right => simp [want] at h
  | pair condition right left remaining =>
      obtain ⟨rest', hafter, hflow⟩ := through_of_nextPair_send (by simpa [want] using h)
      subst hafter
      exact hflow _
  | relay second held =>
      cases held with
      | none => simp [want] at h
      | some r =>
          simp only [want, Want.send.injEq] at h
          obtain ⟨rfl, rfl⟩ := h
          cases second <;> rfl
  | closing => simp [want] at h

/-- An item that arrives is one that the input no longer has to deliver. -/
theorem flow_accept (h : s.want = .receive input) (item : Item) (ins : Nat → List Row) :
    (s.accept item).flow ins = s.flow (Function.update ins input (item.before (ins input))) := by
  cases s with
  | values rows => exact absurd h want_values_ne_receive
  | filter condition held =>
      cases held with
      | none =>
          simp only [want, Want.receive.injEq] at h
          subst h
          cases item <;> simp [accept, flow, Item.before, Flow.through]
      | some r =>
          simp only [want] at h
          split at h
          · simp at h
          · simp at h
          · rename_i hfalse
            injection h with h
            subst h
            have hskip := Flow.through_cons_of_ok (Scalar.keep_of_false hfalse)
            cases item <;> simp [accept, flow, Item.before, hskip, Flow.through, Flow.behind_nil]
  | project exprs held =>
      cases held with
      | none =>
          simp only [want, Want.receive.injEq] at h
          subst h
          cases item <;> simp [accept, flow, Item.before, Flow.through]
      | some r => simp only [want] at h; split at h <;> cases h
  | buffer condition right =>
      simp only [want, Want.receive.injEq] at h
      subst h
      cases item <;> simp [accept, flow, Item.before]
  | pair condition right left remaining =>
      obtain ⟨rfl, hflow⟩ := through_of_nextPair_receive (by simpa [want] using h)
        (Row.pairs (Function.update ins 0 (item.before (ins 0)) 0) right)
      rw [flow, hflow]
      cases item with
      | row l => simp [accept, flow, Item.before, Row.pairs_cons]
      | endOfStream => simp [accept, flow, Item.before, Row.pairs, Flow.through]
  | relay second held =>
      cases held with
      | none =>
          simp only [want, Want.receive.injEq] at h
          subst h
          cases second <;> cases item <;> simp [accept, flow, Item.before, Flow.empty]
      | some r => simp [want] at h
  | closing => simp [want] at h

/-! ### Calls move rows across the rest -/

/-- What cannot go on ends the rest with its defect. -/
theorem rest_of_want_fail {d : RunDefect} (h : s.want = .fail d) (ins : Nat → List Row) :
    s.rest ins = .error d := by
  rw [rest_eq, flow_of_want_fail h]
  rfl

/-- A stage that closes its output has nothing left to send. -/
theorem rest_of_want_close (h : s.want = .close) (ins : Nat → List Row) : s.rest ins = .ok [] := by
  rw [rest_eq, flow_of_want_close h]
  rfl

/-- A send takes the first row off the rest. -/
theorem rest_of_want_send (h : s.want = .send row after) (ins : Nat → List Row) :
    s.rest ins = (after.rest ins).map (row :: ·) := by
  rw [rest_eq, rest_eq, flow_of_want_send h, Flow.whole_behind]
  rfl

/-- An item that arrives is one that the input no longer has to deliver. -/
theorem rest_accept (h : s.want = .receive input) (item : Item) (ins : Nat → List Row) :
    (s.accept item).rest ins = s.rest (Function.update ins input (item.before (ins input))) := by
  rw [rest_eq, rest_eq, flow_accept h]

/-! ### What a stage has seen of its inputs -/

/-- Whether a stage belongs to an operator with so many inputs. -/
def Fits (inputs : Nat) : Stage → Prop
  | .values _ => inputs = 0
  | .filter _ _ | .project _ _ => inputs = 1
  | .buffer _ _ | .pair _ _ _ _ | .relay _ _ => inputs = 2
  | .closing => True

/-- Whether the closing mark has come from the input at a position. -/
def exhausted : Stage → Nat → Bool
  | .pair _ _ _ _, 1 => true
  | .relay true _, 0 => true
  | .closing, _ => true
  | _, _ => false

theorem fits_start (op : Operator) : op.stage.Fits op.inputCount := by
  cases op <;> rfl

theorem exhausted_start (op : Operator) (input : Nat) : op.stage.exhausted input = false := by
  cases op <;> rfl

/-- A send changes nothing of what a stage has seen. -/
theorem seen_of_want_send {inputs : Nat} (h : s.want = .send row after) (hfits : s.Fits inputs) :
    after.Fits inputs ∧ ∀ input, after.exhausted input = s.exhausted input := by
  cases s with
  | values rows =>
      match rows with
      | [] => simp [want] at h
      | .row r :: rows =>
          simp only [want, Want.send.injEq] at h
          obtain ⟨rfl, rfl⟩ := h
          exact ⟨hfits, fun _ => rfl⟩
      | .endOfStream :: rows => simp [want] at h
  | filter condition held =>
      cases held with
      | none => simp [want] at h
      | some r =>
          simp only [want] at h
          split at h <;> cases h
          exact ⟨hfits, fun _ => rfl⟩
  | project exprs held =>
      cases held with
      | none => simp [want] at h
      | some r =>
          simp only [want] at h
          split at h <;> cases h
          exact ⟨hfits, fun _ => rfl⟩
  | buffer condition right => simp [want] at h
  | pair condition right left remaining =>
      obtain ⟨rest', hafter, -⟩ := through_of_nextPair_send (by simpa [want] using h)
      subst hafter
      exact ⟨hfits, fun input => by cases input with | zero => rfl | succ n => cases n <;> rfl⟩
  | relay second held =>
      cases held with
      | none => simp [want] at h
      | some r =>
          simp only [want, Want.send.injEq] at h
          obtain ⟨rfl, rfl⟩ := h
          refine ⟨hfits, ?_⟩
          intro input
          cases second
          · rfl
          · cases input <;> rfl
  | closing => simp [want] at h

/-- A stage closes its output when it has seen the closing marks of all its inputs. -/
theorem exhausted_of_want_close {inputs : Nat} (h : s.want = .close) (hfits : s.Fits inputs)
    (hlt : input < inputs) : s.exhausted input = true := by
  cases s with
  | values rows =>
      cases hfits
      omega
  | filter condition held =>
      cases held with
      | none => simp [want] at h
      | some r => simp only [want] at h; split at h <;> cases h
  | project exprs held =>
      cases held with
      | none => simp [want] at h
      | some r => simp only [want] at h; split at h <;> cases h
  | buffer condition right => simp [want] at h
  | pair condition right left remaining => exact absurd (by simpa [want] using h) nextPair_ne_close
  | relay second held => cases held <;> simp [want] at h
  | closing => rfl

/-- A stage asks only for inputs that it has and whose closing mark it has not seen. -/
theorem open_of_want_receive {inputs : Nat} (h : s.want = .receive input) (hfits : s.Fits inputs) :
    input < inputs ∧ s.exhausted input = false := by
  cases s with
  | values rows => exact absurd h want_values_ne_receive
  | filter condition held =>
      cases hfits
      cases held with
      | none => cases h; exact ⟨by omega, rfl⟩
      | some r =>
          simp only [want] at h
          split at h <;> cases h
          exact ⟨by omega, rfl⟩
  | project exprs held =>
      cases hfits
      cases held with
      | none => cases h; exact ⟨by omega, rfl⟩
      | some r => simp only [want] at h; split at h <;> cases h
  | buffer condition right =>
      cases hfits
      cases h
      exact ⟨by omega, rfl⟩
  | pair condition right left remaining =>
      cases hfits
      obtain ⟨rfl, -⟩ := through_of_nextPair_receive (by simpa [want] using h) []
      exact ⟨by omega, rfl⟩
  | relay second held =>
      cases hfits
      cases held with
      | none => cases h; cases second <;> exact ⟨by simp, rfl⟩
      | some r => simp [want] at h
  | closing => simp [want] at h

/-- An item that arrives is noted when it is the closing mark, and otherwise changes nothing of
what a stage has seen. -/
theorem seen_accept {inputs : Nat} (h : s.want = .receive input) (hfits : s.Fits inputs)
    (item : Item) :
    (s.accept item).Fits inputs ∧ ∀ i < inputs,
      (s.accept item).exhausted i = (s.exhausted i || (item.isEnd && i == input)) := by
  cases s with
  | values rows => exact absurd h want_values_ne_receive
  | filter condition held =>
      obtain ⟨hlt, -⟩ := open_of_want_receive h hfits
      cases hfits
      obtain rfl : input = 0 := by omega
      cases item with
      | row r => exact ⟨rfl, fun i _ => rfl⟩
      | endOfStream =>
          refine ⟨trivial, ?_⟩
          intro i hi
          obtain rfl : i = 0 := by omega
          rfl
  | project exprs held =>
      obtain ⟨hlt, -⟩ := open_of_want_receive h hfits
      cases hfits
      obtain rfl : input = 0 := by omega
      cases item with
      | row r => exact ⟨rfl, fun i _ => rfl⟩
      | endOfStream =>
          refine ⟨trivial, ?_⟩
          intro i hi
          obtain rfl : i = 0 := by omega
          rfl
  | buffer condition right =>
      cases hfits
      cases h
      cases item with
      | row r => exact ⟨rfl, fun i _ => rfl⟩
      | endOfStream =>
          refine ⟨rfl, ?_⟩
          intro i hi
          obtain rfl | rfl : i = 0 ∨ i = 1 := by omega
          · rfl
          · rfl
  | pair condition right left remaining =>
      cases hfits
      obtain ⟨rfl, -⟩ := through_of_nextPair_receive (by simpa [want] using h) []
      cases item with
      | row r =>
          refine ⟨rfl, ?_⟩
          intro i hi
          obtain rfl | rfl : i = 0 ∨ i = 1 := by omega
          · rfl
          · rfl
      | endOfStream =>
          refine ⟨trivial, ?_⟩
          intro i hi
          obtain rfl | rfl : i = 0 ∨ i = 1 := by omega
          · rfl
          · rfl
  | relay second held =>
      cases held with
      | some r => simp [want] at h
      | none =>
          cases hfits
          cases h
          cases second <;> cases item <;>
            refine ⟨by first | rfl | trivial, fun i hi => ?_⟩ <;>
            obtain rfl | rfl : i = 0 ∨ i = 1 := by omega
          all_goals rfl
  | closing => simp [want] at h

end Stage

end StreamQuery
