/-
The course of an operator whose calls are answered in any way.

An operator calls and its channels answer.  `Operator.Course` lets them answer as they like: any
row may arrive, an input may end or fail, a consumer may go away and the query may be cancelled,
each at any call.  `Traffic` writes down what passed: the rows from each input, which inputs have
ended, the rows that were sent and whether the output was closed.

What carries everything is one equation.  Whatever the inputs still deliver, the answer to all that
they then will have delivered is what the operator has sent, followed by what its stage will still
send (`InCourse.flow`).  A row that arrives moves from the future of an input to its past, a row
that is sent moves from the flow of the stage to what was sent, and neither changes the equation.
-/
import StreamQuery.Operator.Trial
import StreamQuery.Proofs.Operator.Stream

namespace StreamQuery

/-- What has passed between an operator and its channels. -/
structure Traffic where
  /-- The rows that came from the input at a position. -/
  received : Nat → List Row
  /-- Whether the closing mark has come from the input at a position. -/
  ended : Nat → Bool
  /-- The rows that the output has taken. -/
  sent : List Row
  /-- Whether the output has taken the closing mark. -/
  closed : Bool

namespace Traffic

/-- Nothing has passed. -/
def none : Traffic := ⟨fun _ => [], fun _ => false, [], false⟩

/-- What has passed after a call was answered. -/
def note (t : Traffic) : Want → Reply → Traffic
  | .receive i, .item (.row r) =>
    { t with received := Function.update t.received i (t.received i ++ [r]) }
  | .receive i, .item .endOfStream => { t with ended := Function.update t.ended i true }
  | .send row _, .done => { t with sent := t.sent ++ [row] }
  | .close, .done => { t with closed := true }
  | _, _ => t

/-- Whether these rows may be all that the inputs deliver: those received come first, and they are
all where the closing mark has come. -/
def Before (t : Traffic) (ins : Nat → List Row) : Prop :=
  ∀ i, t.received i <+: ins i ∧ (t.ended i = true → ins i = t.received i)

/-- The rows of inputs that deliver these rows behind those received. -/
def followed (t : Traffic) (ins : Nat → List Row) : Nat → List Row :=
  fun i => t.received i ++ ins i

/-- Whether no rows come behind a closing mark. -/
def Leaves (t : Traffic) (ins : Nat → List Row) : Prop :=
  ∀ i, t.ended i = true → ins i = []

theorem before_received (t : Traffic) : t.Before t.received :=
  fun _ => ⟨List.prefix_rfl, fun _ => rfl⟩

/-- An arrival sends nothing. -/
theorem note_receive_out (t : Traffic) (input : Nat) (item : Item) :
    (t.note (.receive input) (.item item)).sent = t.sent ∧
      (t.note (.receive input) (.item item)).closed = t.closed := by
  cases item <;> exact ⟨rfl, rfl⟩

/-- An arrival is noted at its input. -/
theorem note_receive_self (t : Traffic) (input : Nat) (item : Item) :
    (t.note (.receive input) (.item item)).received input = t.received input ++ item.before [] ∧
      (t.note (.receive input) (.item item)).ended input = (t.ended input || item.isEnd) := by
  cases item <;> simp [note, Item.before, Item.isEnd]

theorem note_receive_of_ne (t : Traffic) {input pos : Nat} (item : Item) (h : pos ≠ input) :
    (t.note (.receive input) (.item item)).received pos = t.received pos ∧
      (t.note (.receive input) (.item item)).ended pos = t.ended pos := by
  cases item <;> simp [note, h]

/-- What the inputs deliver in all is what they have delivered and what they still will. -/
theorem Before.split {t : Traffic} {ins : Nat → List Row} (h : t.Before ins) :
    ∃ later, t.Leaves later ∧ t.followed later = ins := by
  refine ⟨fun i => (ins i).drop (t.received i).length, ?_, ?_⟩
  · intro i hi
    simp [(h i).2 hi]
  · funext i
    exact List.prefix_iff_eq_append.mp (h i).1

/-- An item that arrived is one that the input no longer has to deliver. -/
theorem followed_arrival {t : Traffic} {input : Nat} {item : Item} {ins : Nat → List Row}
    (h : (t.note (.receive input) (.item item)).Leaves ins) :
    (t.note (.receive input) (.item item)).followed ins
      = t.followed (Function.update ins input (item.before (ins input))) := by
  funext i
  cases item with
  | row r =>
      by_cases hi : i = input
      · subst hi
        simp [followed, note, Item.before]
      · simp [followed, note, Function.update_of_ne hi]
  | endOfStream =>
      have hnil : ins input = [] := h input (by simp [note])
      by_cases hi : i = input
      · subst hi
        simp [followed, note, Item.before, hnil]
      · simp [followed, note, Function.update_of_ne hi]

/-- Rows that may come behind an item that arrives at an open input may come behind what was
received before it. -/
theorem leaves_arrival {t : Traffic} {input : Nat} {item : Item} {ins : Nat → List Row}
    (hopen : t.ended input = false) (h : (t.note (.receive input) (.item item)).Leaves ins) :
    t.Leaves (Function.update ins input (item.before (ins input))) := by
  intro i hi
  have hne : i ≠ input := by
    rintro rfl
    simp [hopen] at hi
  rw [Function.update_of_ne hne]
  apply h i
  cases item with
  | row r => exact hi
  | endOfStream => simpa [note, Function.update_of_ne hne] using hi

end Traffic

/-! ### What operators answer to whole inputs -/

namespace Operator

/-- The rows that an operator answers to the rows of its inputs, and the defect at which it stops,
if there is one. -/
def answer (op : Operator) (ins : Nat → List Row) : Flow :=
  match op with
  | .values rows => .through Item.toSend rows
  | .filter condition => .through condition.keep (ins 0)
  | .project exprs => .through (Scalar.fields exprs) (ins 0)
  | .join condition => .through condition.keep (Row.pairs (ins 0) (ins 1))
  | .union => ⟨ins 0 ++ ins 1, none⟩

theorem answer_eq (op : Operator) (ins : Nat → List Row) : op.answer ins = op.stage.flow ins := by
  cases op <;> rfl

/-- What is left of whole inputs in the first stage is the answer to them. -/
theorem answer_of_rest {op : Operator} {ins : Nat → List Row} {rows : List Row}
    (h : op.stage.rest ins = .ok rows) : op.answer ins = ⟨rows, none⟩ := by
  rw [Stage.rest_eq, ← answer_eq] at h
  generalize op.answer ins = f at h ⊢
  obtain ⟨sent, _ | d⟩ := f
  · cases h
    rfl
  · cases h

/-- An operator looks only at as many inputs as it has. -/
theorem answer_congr {op : Operator} {ins ins' : Nat → List Row}
    (h : ∀ pos < op.inputCount, ins pos = ins' pos) : op.answer ins = op.answer ins' := by
  cases op with
  | values rows => rfl
  | filter condition => simp only [answer, h 0 (by simp [inputCount])]
  | project exprs => simp only [answer, h 0 (by simp [inputCount])]
  | join condition => simp only [answer, h 0 (by simp [inputCount]), h 1 (by simp [inputCount])]
  | union => simp only [answer, h 0 (by simp [inputCount]), h 1 (by simp [inputCount])]

/-- The courses of an operator: its calls, one after the other, are answered in any way. -/
inductive Course (op : Operator) : Progress → Traffic → Prop where
  | begins : Course op (.running op.stage) .none
  | goesOn {s : Stage} {t : Traffic} (h : Course op (.running s) t) (r : Reply) :
    Course op (s.reply r) (t.note s.want r)

namespace Course

variable {op : Operator} {s after : Stage} {t : Traffic} {input : Nat} {row : Row}

theorem crash (h : op.Course (.running s) t) {d : RunDefect} (hwant : s.want = .fail d) :
    op.Course (.ended (.crashed d)) t := by
  have hnext := h.goesOn .done
  simp only [Stage.reply, hwant] at hnext
  exact hnext

theorem fail (h : op.Course (.running s) t) (hwant : ∀ d, s.want ≠ .fail d) (e : ChannelError) :
    op.Course (.ended (.failed e)) t := by
  have hnext := h.goesOn (.failed e)
  cases hw : s.want with
  | fail d => exact absurd hw (hwant d)
  | receive input => simpa only [Stage.reply, Traffic.note, hw] using hnext
  | send row after => simpa only [Stage.reply, Traffic.note, hw] using hnext
  | close => simpa only [Stage.reply, Traffic.note, hw] using hnext

theorem receive (h : op.Course (.running s) t) (hwant : s.want = .receive input) (item : Item) :
    op.Course (.running (s.accept item)) (t.note (.receive input) (.item item)) := by
  have hnext := h.goesOn (.item item)
  simp only [Stage.reply, hwant] at hnext
  exact hnext

theorem send (h : op.Course (.running s) t) (hwant : s.want = .send row after) :
    op.Course (.running after) { t with sent := t.sent ++ [row] } := by
  have hnext := h.goesOn .done
  simp only [Stage.reply, hwant] at hnext
  exact hnext

theorem close (h : op.Course (.running s) t) (hwant : s.want = .close) :
    op.Course (.ended .ok) { t with closed := true } := by
  have hnext := h.goesOn .done
  simp only [Stage.reply, hwant] at hnext
  exact hnext

end Course

/-- What holds of an operator in a stage after what has passed. -/
structure InCourse (op : Operator) (s : Stage) (t : Traffic) : Prop where
  fits : s.Fits op.inputCount
  ended : ∀ i < op.inputCount, t.ended i = s.exhausted i
  /-- The answer to all that the inputs deliver is what was sent and what is still to come. -/
  flow : ∀ ins, t.Leaves ins → op.stage.flow (t.followed ins) = (s.flow ins).behind t.sent
  /-- A join sends nothing before its right input has ended. -/
  late : ∀ condition, op = .join condition →
    t.ended 1 = true ∨ t.sent = [] ∧ ∃ right, s = .buffer condition right

namespace InCourse

variable {op : Operator} {s after : Stage} {t : Traffic} {input : Nat} {row : Row}

theorem start (op : Operator) : op.InCourse op.stage .none where
  fits := Stage.fits_start op
  ended := fun i _ => (Stage.exhausted_start op i).symm
  flow := fun _ _ => rfl
  late := by
    rintro condition rfl
    exact .inr ⟨rfl, [], rfl⟩

/-- A stage asks for inputs that have not ended. -/
theorem ended_of_want (h : op.InCourse s t) (hwant : s.want = .receive input) :
    t.ended input = false := by
  obtain ⟨hlt, hopen⟩ := Stage.open_of_want_receive hwant h.fits
  rw [h.ended input hlt, hopen]

theorem receive (h : op.InCourse s t) (hwant : s.want = .receive input) (item : Item) :
    op.InCourse (s.accept item) (t.note (.receive input) (.item item)) where
  fits := (Stage.seen_accept hwant h.fits item).1
  ended := by
    intro i hi
    rw [(Stage.seen_accept hwant h.fits item).2 i hi, ← h.ended i hi]
    cases item with
    | row r => simp [Traffic.note, Item.isEnd]
    | endOfStream =>
        by_cases heq : i = input
        · subst heq
          simp [Traffic.note, Item.isEnd]
        · simp [Traffic.note, Item.isEnd, heq]
  flow := by
    intro ins hins
    have hsent : (t.note (.receive input) (.item item)).sent = t.sent := by cases item <;> rfl
    rw [Traffic.followed_arrival hins,
      h.flow _ (Traffic.leaves_arrival (h.ended_of_want hwant) hins),
      Stage.flow_accept hwant, hsent]
  late := by
    rintro condition rfl
    rcases h.late condition rfl with hended | ⟨hsent, right, rfl⟩
    · left
      cases item with
      | row r => exact hended
      | endOfStream =>
          by_cases heq : 1 = input
          · simp [Traffic.note, heq]
          · simpa [Traffic.note, Function.update_of_ne heq] using hended
    · cases hwant
      cases item with
      | row r => exact .inr ⟨hsent, r :: right, rfl⟩
      | endOfStream => exact .inl (by simp [Traffic.note])

theorem send (h : op.InCourse s t) (hwant : s.want = .send row after) :
    op.InCourse after (t.note (.send row after) .done) where
  fits := (Stage.seen_of_want_send hwant h.fits).1
  ended := by
    intro i hi
    rw [(Stage.seen_of_want_send hwant h.fits).2 i, ← h.ended i hi]
    rfl
  flow := by
    intro ins hins
    have hflow : op.stage.flow (t.followed ins) = (s.flow ins).behind t.sent := h.flow ins hins
    rw [Stage.flow_of_want_send hwant, Flow.behind_behind] at hflow
    exact hflow
  late := by
    rintro condition rfl
    rcases h.late condition rfl with hended | ⟨-, right, rfl⟩
    · exact .inl hended
    · simp [Stage.want] at hwant

end InCourse

/-! ### Where a course may stand -/

/-- What holds of an operator, at work or ended, after what has passed. -/
inductive Stands (op : Operator) (t : Traffic) : Progress → Prop where
  | running {s : Stage} (h : op.InCourse s t) (hopen : t.closed = false) :
    Stands op t (.running s)
  | closed {s : Stage} (h : op.InCourse s t) (hwant : s.want = .close) (hclosed : t.closed = true) :
    Stands op t (.ended .ok)
  | crashed {s : Stage} {d : RunDefect} (h : op.InCourse s t) (hwant : s.want = .fail d)
    (hopen : t.closed = false) : Stands op t (.ended (.crashed d))
  | failed {s : Stage} {e : ChannelError} (h : op.InCourse s t) (hopen : t.closed = false) :
    Stands op t (.ended (.failed e))

variable {op : Operator} {t : Traffic} {p : Progress}

/-- One answer, whatever it is. -/
theorem InCourse.reply {s : Stage} (h : op.InCourse s t) (hopen : t.closed = false) (r : Reply) :
    op.Stands (t.note s.want r) (s.reply r) := by
  cases hwant : s.want with
  | fail d =>
      simp only [Stage.reply, hwant]
      exact .crashed h hwant hopen
  | receive input =>
      cases r with
      | item i =>
          simp only [Stage.reply, hwant]
          refine .running (h.receive hwant i) ?_
          cases i <;> exact hopen
      | done => simpa only [Stage.reply, hwant] using .running h hopen
      | failed e => simpa only [Stage.reply, hwant] using .failed h hopen
  | send row after =>
      cases r with
      | item i => simpa only [Stage.reply, hwant] using .running h hopen
      | done => simpa only [Stage.reply, hwant] using .running (h.send hwant) hopen
      | failed e => simpa only [Stage.reply, hwant] using .failed h hopen
  | close =>
      cases r with
      | item i => simpa only [Stage.reply, hwant] using .running h hopen
      | done =>
          simp only [Stage.reply, hwant]
          exact .closed ⟨h.fits, h.ended, h.flow, h.late⟩ hwant rfl
      | failed e => simpa only [Stage.reply, hwant] using .failed h hopen

theorem stands_of_course (h : op.Course p t) : op.Stands t p := by
  induction h with
  | begins => exact .running (.start op) rfl
  | goesOn _ r ih =>
      cases ih with
      | running hin hopen => exact hin.reply hopen r

theorem Stands.inCourse (h : op.Stands t p) : ∃ s, op.InCourse s t := by
  cases h with
  | running h _ => exact ⟨_, h⟩
  | closed h _ _ => exact ⟨_, h⟩
  | crashed h _ _ => exact ⟨_, h⟩
  | failed h _ => exact ⟨_, h⟩

/-- An output is closed only by an operator that has nothing left and then ends well. -/
theorem Stands.of_closed (h : op.Stands t p) (hclosed : t.closed = true) :
    p = .ended .ok ∧ ∃ s, op.InCourse s t ∧ s.want = .close := by
  cases h with
  | closed hin hwant _ => exact ⟨rfl, _, hin, hwant⟩
  | running _ hopen => simp [hopen] at hclosed
  | crashed _ _ hopen => simp [hopen] at hclosed
  | failed _ hopen => simp [hopen] at hclosed

theorem closed_of_running {s : Stage} (h : op.Course (.running s) t) : t.closed = false := by
  cases stands_of_course h with
  | running _ hopen => exact hopen

theorem closed_of_ok (h : op.Course (.ended .ok) t) : t.closed = true := by
  cases stands_of_course h with
  | closed _ _ hclosed => exact hclosed

/-- An operator asks for inputs that have not ended. -/
theorem ended_of_wanted {s : Stage} {input : Nat} (h : op.Course (.running s) t)
    (hwant : s.want = .receive input) : t.ended input = false := by
  cases stands_of_course h with
  | running hin _ => exact hin.ended_of_want hwant

/-! ### Operators keep to their answers -/

/-- Whatever may still come, the answer begins with what was sent. -/
theorem InCourse.sent_isPrefix {s : Stage} (h : op.InCourse s t) {ins : Nat → List Row}
    (hins : t.Before ins) : t.sent <+: (op.answer ins).rows := by
  obtain ⟨later, hleaves, rfl⟩ := hins.split
  rw [answer_eq, h.flow later hleaves]
  exact List.prefix_append _ _

/-- When the output is closed, the answer was sent. -/
theorem InCourse.answer_of_close {s : Stage} (h : op.InCourse s t) (hwant : s.want = .close)
    {ins : Nat → List Row} (hins : t.Before ins) : op.answer ins = ⟨t.sent, none⟩ := by
  obtain ⟨later, hleaves, rfl⟩ := hins.split
  rw [answer_eq, h.flow later hleaves, Stage.flow_of_want_close hwant]
  simp [Flow.behind, Flow.empty]

/-- When an expression has no value, the answer stops there. -/
theorem InCourse.answer_of_fail {s : Stage} {d : RunDefect} (h : op.InCourse s t)
    (hwant : s.want = .fail d) {ins : Nat → List Row} (hins : t.Before ins) :
    op.answer ins = ⟨t.sent, some d⟩ := by
  obtain ⟨later, hleaves, rfl⟩ := hins.split
  rw [answer_eq, h.flow later hleaves, Stage.flow_of_want_fail hwant]
  simp [Flow.behind]

/-- What follows for inputs that are known only where the operator has inputs. -/
theorem beginning_of_course {ins : Nat → List Row} (h : op.Course p t)
    (hins : ∀ pos < op.inputCount, t.received pos <+: ins pos ∧
      (t.ended pos = true → ins pos = t.received pos)) :
    t.sent <+: (op.answer ins).rows ∧ (t.closed = true → op.answer ins = ⟨t.sent, none⟩) := by
  -- elsewhere what was received, which is nothing, stands for the input
  let padded : Nat → List Row := fun pos => if pos < op.inputCount then ins pos else t.received pos
  have hsame : op.answer ins = op.answer padded :=
    answer_congr fun pos hpos => (if_pos hpos).symm
  have hbefore : t.Before padded := by
    intro pos
    by_cases hpos : pos < op.inputCount
    · simpa only [padded, if_pos hpos] using hins pos hpos
    · simp only [padded, if_neg hpos]
      exact ⟨List.prefix_rfl, fun _ => trivial⟩
  have hstands := stands_of_course h
  obtain ⟨_, hin⟩ := hstands.inCourse
  rw [hsame]
  refine ⟨hin.sent_isPrefix hbefore, ?_⟩
  intro hclosed
  obtain ⟨-, last, hlast, hwant⟩ := hstands.of_closed hclosed
  exact hlast.answer_of_close hwant hbefore

/-- **An operator sends a beginning of its answer and closes its output exactly when it has sent
all of it.**  Whatever its channels do, at every moment:

* the rows that the output has taken are the first rows of the answer to the rows received so far,
  and of the answer to whatever the inputs may deliver in all;
* a join has sent nothing as long as its right input has not ended;
* if the output is closed, all inputs have ended and all rows of the answer were sent;
* the operator has ended well if and only if its output is closed;
* if it has crashed, it has sent all rows of the answer before the defect. -/
theorem sends_beginning_of_answer (h : op.Course p t) :
    (t.sent <+: (op.answer t.received).rows
      ∧ ∀ ins, t.Before ins → t.sent <+: (op.answer ins).rows)
    ∧ (∀ condition, op = .join condition → t.ended 1 = false → t.sent = [])
    ∧ (t.closed = true →
      (∀ i < op.inputCount, t.ended i = true) ∧ op.answer t.received = ⟨t.sent, none⟩)
    ∧ (p = .ended .ok ↔ t.closed = true)
    ∧ ∀ d, p = .ended (.crashed d) → ∀ ins, t.Before ins → op.answer ins = ⟨t.sent, some d⟩ := by
  have hstands := stands_of_course h
  obtain ⟨s, hin⟩ := hstands.inCourse
  refine ⟨⟨hin.sent_isPrefix t.before_received, fun ins => hin.sent_isPrefix⟩, ?_, ?_, ?_, ?_⟩
  · intro condition hjoin hopen
    rcases hin.late condition hjoin with hended | ⟨hsent, -⟩
    · simp [hopen] at hended
    · exact hsent
  · intro hclosed
    obtain ⟨-, last, hlast, hwant⟩ := hstands.of_closed hclosed
    refine ⟨?_, hlast.answer_of_close hwant t.before_received⟩
    intro i hi
    rw [hlast.ended i hi, Stage.exhausted_of_want_close hwant hlast.fits hi]
  · constructor
    · rintro rfl
      exact closed_of_ok h
    · exact fun hclosed => (hstands.of_closed hclosed).1
  · rintro d rfl ins hins
    cases hstands with
    | crashed hlast hwant _ => exact hlast.answer_of_fail hwant hins

/-- A join reads its right input to the end and sends a pair, and then the query is cancelled. -/
theorem sends_beginning_of_answer_of_cancelled_join :
    ∃ t, (Operator.join ⟨.literal (.bool true), .constant (.bool true)⟩).Course
        (.ended (.failed .cancelled)) t ∧
      t.sent = [[.int 1, .int 2]] ∧ t.closed = false ∧
      t.sent <+: ((Operator.join ⟨.literal (.bool true), .constant (.bool true)⟩).answer
        t.received).rows := by
  let join := Operator.join ⟨.literal (.bool true), .constant (.bool true)⟩
  have begun : join.Course (.running join.stage) .none := .begins
  have buffered := begun.goesOn (.item (.row [.int 2]))
  have paired := (buffered.goesOn (.item .endOfStream)).goesOn (.item (.row [.int 1]))
  have cancelled := (paired.goesOn .done).goesOn (.failed .cancelled)
  exact ⟨_, cancelled, rfl, rfl, (sends_beginning_of_answer cancelled).1.1⟩

end Operator

/-! ### Operators between given inputs and a given consumer -/

namespace Trial

/-- The rows that come from an input before its closing mark. -/
def Script.rows (script : Script) (input : Nat) : List Row :=
  (script.inputs[input]?.getD []).foldr Item.before []

/-- The next item of an input stands before its other rows. -/
theorem Script.rows_of_next {script rest : Script} {input : Nat} {item : Item}
    (h : script.next? input = some (item, rest)) (i : Nat) :
    script.rows i = if i = input then item.before (rest.rows i) else rest.rows i := by
  unfold Script.next? at h
  split at h
  · rename_i first others found
    cases h
    have hlt : input < script.inputs.length := (List.getElem?_eq_some_iff.mp found).1
    by_cases hi : i = input
    · subst hi
      simp only [Script.rows, found, List.getElem?_set_self hlt, if_true]
      rfl
    · simp [Script.rows, hi, List.getElem?_set_ne (Ne.symm hi)]
  · cases h

/-- What the inputs of a script deliver in all, when an operator has already received some. -/
def Script.Delivers (script : Script) (t : Traffic) (ins : Nat → List Row) : Prop :=
  ∀ i, ins i = if t.ended i then t.received i else t.received i ++ script.rows i

theorem Script.Delivers.before {script : Script} {t : Traffic} {ins : Nat → List Row}
    (h : script.Delivers t ins) : t.Before ins := by
  intro i
  rw [h i]
  cases t.ended i <;> simp

theorem Script.Delivers.receive {script rest : Script} {t : Traffic} {ins : Nat → List Row}
    {input : Nat} {item : Item} (h : script.Delivers t ins) (hopen : t.ended input = false)
    (hnext : script.next? input = some (item, rest)) :
    rest.Delivers (t.note (.receive input) (.item item)) ins := by
  intro i
  have hrows := Script.rows_of_next hnext i
  by_cases hi : i = input
  · subst hi
    rw [h i, hopen, hrows]
    cases item <;> simp [Traffic.note, hopen, Item.before]
  · rw [h i, hrows, if_neg hi]
    cases item <;> simp [Traffic.note, Function.update_of_ne hi]

variable {op : Operator}

/-- A trial is a course. -/
theorem course_of_runFrom {s : Stage} {script : Script} {sent : List Row} {t : Traffic}
    {ins : Nat → List Row} (h : op.Course (.running s) t) (hsent : t.sent = sent.reverse)
    (hins : script.Delivers t ins) :
    ∃ u, op.Course (.ended (runFrom s script sent).outcome) u ∧
      u.sent = (runFrom s script sent).rows ∧ u.Before ins := by
  fun_induction runFrom s script sent generalizing t with
  | case1 s script sent d hwant =>
      exact ⟨t, h.crash hwant, hsent, hins.before⟩
  | case2 s script sent input hwant _ | case3 s script sent input hwant _ _ =>
      exact ⟨t, h.fail (by simp [hwant]) _, hsent, hins.before⟩
  | case4 s script sent input hwant _ item rest hnext _ ih =>
      have hopen : t.ended input = false := Operator.ended_of_wanted h hwant
      refine ih (h.receive hwant item) ?_ (hins.receive hopen hnext)
      cases item <;> exact hsent
  | case5 s script sent row after hwant _ | case6 s script sent row after hwant _ _ _ =>
      exact ⟨t, h.fail (by simp [hwant]) _, hsent, hins.before⟩
  | case7 s script sent row after hwant _ _ _ ih =>
      refine ih (h.send hwant) ?_ hins
      simp [hsent]
  | case8 s script sent hwant _ | case9 s script sent hwant _ _ =>
      exact ⟨t, h.fail (by simp [hwant]) _, hsent, hins.before⟩
  | case10 s script sent hwant _ _ =>
      exact ⟨_, h.close hwant, hsent, hins.before⟩

/-- **A trial takes a beginning of the answer to its script**, all of it if the operator ends well,
and all before the defect if it crashes. -/
theorem run_takes_beginning (op : Operator) (script : Script) :
    (run op.stage script).rows <+: (op.answer script.rows).rows ∧
    match (run op.stage script).outcome with
    | .ok => op.answer script.rows = ⟨(run op.stage script).rows, .none⟩
    | .crashed d => op.answer script.rows = ⟨(run op.stage script).rows, some d⟩
    | .failed _ => True := by
  have hbegun : op.Course (.running op.stage) .none := .begins
  have hins : script.Delivers .none script.rows := fun i => rfl
  have hnothing : Traffic.none.sent = List.reverse [] := rfl
  obtain ⟨u, hcourse, hrows, hbefore⟩ := course_of_runFrom hbegun hnothing hins
  have hstands := Operator.stands_of_course hcourse
  obtain ⟨s, hin⟩ := hstands.inCourse
  rw [run, ← hrows]
  refine ⟨hin.sent_isPrefix hbefore, ?_⟩
  generalize (runFrom op.stage script []).outcome = o at hstands ⊢
  cases hstands with
  | closed hlast hwant _ => exact hlast.answer_of_close hwant hbefore
  | crashed hlast hwant _ => exact hlast.answer_of_fail hwant hbefore
  | failed _ _ => trivial

end Trial

end StreamQuery
