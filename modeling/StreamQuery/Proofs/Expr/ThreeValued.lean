/-
Expressions in three-valued logic.

`Expr.Gives` and `Expr.Breaks` say, by recursion on an expression and without compiling
it, which value it has on a row and why it has none.  Truth values are Kleene's, null
being the unknown one.  A comparison looks at both its sides.  A conjunction looks at its
operands from left to right up to the first that is false, a disjunction up to the first
that is true, and each gives Kleene's join of those it has looked at; what stands behind
them does not matter.

A compiled expression computes just that: on every row it has the value that the
expression gives, and it fails with the defect with which the expression breaks.
-/
import Mathlib.Data.List.Forall2
import StreamQuery.Expr.Scalar

namespace StreamQuery

/-! ### Truth values -/

/-- A truth value of Kleene's logic. -/
inductive Truth where
  | no
  | unknown
  | yes
deriving DecidableEq

namespace Truth

/-- The truth value of a boolean. -/
def ofBool (b : Bool) : Truth :=
  if b then yes else no

/-- The value that stands for a truth value. -/
def value : Truth → Value
  | no => .bool false
  | unknown => .null
  | yes => .bool true

/-- The opposite; that of the unknown is unknown. -/
def not : Truth → Truth
  | no => yes
  | unknown => unknown
  | yes => no

/-- False if one side is, true if both are. -/
def and : Truth → Truth → Truth
  | no, _ => no
  | yes, t => t
  | unknown, no => no
  | unknown, _ => unknown

/-- True if one side is, false if both are. -/
def or : Truth → Truth → Truth
  | yes, _ => yes
  | no, t => t
  | unknown, yes => yes
  | unknown, _ => unknown

/-- The connective that one truth value decides on its own: what false decides is a conjunction,
what true decides a disjunction. -/
def join (deciding : Bool) : Truth → Truth → Truth :=
  if deciding then or else and

/-- The join of truth values; of none it is the value that decides nothing. -/
def joinAll (deciding : Bool) (ts : List Truth) : Truth :=
  ts.foldr (join deciding) (ofBool !deciding)

theorem value_ofBool (b : Bool) : (ofBool b).value = .bool b := by
  cases b <;> rfl

theorem join_neutral (b : Bool) (t : Truth) : join b (ofBool !b) t = t := by
  cases b <;> rfl

theorem join_deciding (b : Bool) (t u : Truth) : join b t (join b (ofBool b) u) = ofBool b := by
  cases b <;> cases t <;> rfl

theorem join_unknown (b : Bool) (t : Truth) :
    join b .unknown (join b .unknown t) = join b .unknown t := by
  cases b <;> cases t <;> rfl

theorem join_ofBool (b : Bool) (t : Truth) : join b (ofBool b) t = ofBool b := by
  cases b <;> rfl

theorem eq_of_ne_deciding {b : Bool} {t : Truth} (h : t ≠ ofBool b) :
    t = .unknown ∨ t = ofBool !b := by
  cases b <;> cases t <;> simp_all [ofBool]

end Truth

namespace Op

/-- The boolean that decides a connective on its own; no other operator has one. -/
def deciding? : Op → Option Bool
  | .and => some false
  | .or => some true
  | _ => none

/-- The value of a comparison; null if a side is null. -/
def compared (op : Op) (a b : Value) : Value :=
  if a.isNull ∨ b.isNull then .null else .bool (op.compare a b)

/-- How many operands an operator takes. -/
def Takes (op : Op) (n : Nat) : Prop :=
  match op with
  | .and | .or => 1 ≤ n
  | .not | .isNull | .isNotNull => n = 1
  | _ => n = 2

end Op

namespace Expr

/-! ### Which expressions can be compiled -/

/-- A constant, a reference, or a call with as many operands as its operator takes.  Nothing is
said of the operands. -/
def Admitted : Expr → Prop
  | .literal _ | .inputRef _ => True
  | .call op operands => op.Takes operands.length
  | _ => False

mutual
/-- An expression and all expressions inside it. -/
def nodes : Expr → List Expr
  | .call op operands => .call op operands :: nodesAll operands
  | .field e name => .field e name :: nodes e
  | e => [e]
/-- Expressions and all expressions inside them. -/
def nodesAll : List Expr → List Expr
  | [] => []
  | e :: es => nodes e ++ nodesAll es
end

/-! ### What an expression means on a row -/

mutual
/-- The value of an expression on a row. -/
inductive Gives (row : Row) : Expr → Value → Prop where
  | literal {v : Value} : Gives row (.literal v) v
  | inputRef {i : UInt64} {v : Value} (hv : row[i.toNat]? = some v) : Gives row (.inputRef i) v
  | comparison {op : Op} {left right : Expr} {a b : Value} (hop : op.isComparison = true)
      (hleft : Gives row left a) (hright : Gives row right b) :
      Gives row (.call op [left, right]) (op.compared a b)
  | connective {op : Op} {operands : List Expr} {b : Bool} {ts : List Truth}
      (hop : op.deciding? = some b) (hoperands : Looks row b operands ts) :
      Gives row (.call op operands) (Truth.joinAll b ts).value
  | not {e : Expr} {t : Truth} (he : Gives row e t.value) : Gives row (.call .not [e]) t.not.value
  | isNull {e : Expr} {v : Value} (he : Gives row e v) :
      Gives row (.call .isNull [e]) (.bool v.isNull)
  | isNotNull {e : Expr} {v : Value} (he : Gives row e v) :
      Gives row (.call .isNotNull [e]) (.bool !v.isNull)
/-- The truth values of operands from left to right, up to the first that is the given boolean. -/
inductive Looks (row : Row) : Bool → List Expr → List Truth → Prop where
  | nil {b : Bool} : Looks row b [] []
  | decided {b : Bool} {e : Expr} {es : List Expr} (he : Gives row e (.bool b)) :
      Looks row b (e :: es) [.ofBool b]
  | undecided {b : Bool} {e : Expr} {es : List Expr} {t : Truth} {ts : List Truth}
      (he : Gives row e t.value) (ht : t ≠ .ofBool b) (hes : Looks row b es ts) :
      Looks row b (e :: es) (t :: ts)
end

mutual
/-- Why an expression has no value on a row. -/
inductive Breaks (row : Row) : Expr → EvalDefect → Prop where
  | inputRef {i : UInt64} (hi : row.length ≤ i.toNat) :
      Breaks row (.inputRef i) (.shortRow i row.length)
  | left {op : Op} {left right : Expr} {d : EvalDefect} (hop : op.isComparison = true)
      (hleft : Breaks row left d) : Breaks row (.call op [left, right]) d
  | right {op : Op} {left right : Expr} {a : Value} {d : EvalDefect}
      (hop : op.isComparison = true) (hleft : Gives row left a) (hright : Breaks row right d) :
      Breaks row (.call op [left, right]) d
  | connective {op : Op} {operands : List Expr} {b : Bool} {d : EvalDefect}
      (hop : op.deciding? = some b)
      (hoperands : Stumbles row b (.call op operands) operands d) :
      Breaks row (.call op operands) d
  /-- The operand of a negation or of a test for null. -/
  | operand {op : Op} {e : Expr} {d : EvalDefect} (hop : op.Takes 1) (hno : op.deciding? = none)
      (he : Breaks row e d) : Breaks row (.call op [e]) d
  | notTruth {e : Expr} {v : Value} (he : Gives row e v) (hv : ∀ t : Truth, v ≠ t.value) :
      Breaks row (.call .not [e]) (.notBoolean v (.call .not [e]))
/-- Why looking at the operands of a call from left to right, up to the first that is the given
boolean, does not come to its end: one has no value, or one that is no truth value. -/
inductive Stumbles (row : Row) : Bool → Expr → List Expr → EvalDefect → Prop where
  | operand {b : Bool} {call e : Expr} {es : List Expr} {d : EvalDefect}
      (he : Breaks row e d) : Stumbles row b call (e :: es) d
  | notTruth {b : Bool} {call e : Expr} {es : List Expr} {v : Value} (he : Gives row e v)
      (hv : ∀ t : Truth, v ≠ t.value) : Stumbles row b call (e :: es) (.notBoolean v call)
  | later {b : Bool} {call e : Expr} {es : List Expr} {t : Truth} {d : EvalDefect}
      (he : Gives row e t.value) (ht : t ≠ .ofBool b) (hes : Stumbles row b call es d) :
      Stumbles row b call (e :: es) d
end

/-- An expression has a value on a row, or there is a reason why it has none. -/
def Ends (row : Row) (e : Expr) : Prop :=
  (∃ v, e.Gives row v) ∨ ∃ d, e.Breaks row d

/-! ### Every admitted expression ends -/

theorem truth_or_not (v : Value) : (∃ t : Truth, v = t.value) ∨ ∀ t : Truth, v ≠ t.value := by
  by_cases h : ∃ t : Truth, v = t.value
  · exact .inl h
  · exact .inr fun t ht => h ⟨t, ht⟩

theorem looks_or_stumbles {row : Row} (b : Bool) (call : Expr) {es : List Expr}
    (hall : ∀ e ∈ es, e.Ends row) :
    (∃ ts, Looks row b es ts) ∨ ∃ d, Stumbles row b call es d := by
  induction es with
  | nil => exact .inl ⟨[], .nil⟩
  | cons e es ih =>
      obtain ⟨v, hv⟩ | ⟨d, hd⟩ := hall e List.mem_cons_self
      · obtain ⟨t, rfl⟩ | hno := truth_or_not v
        · by_cases ht : t = .ofBool b
          · rw [ht, Truth.value_ofBool] at hv
            exact .inl ⟨_, .decided hv⟩
          · obtain ⟨ts, hts⟩ | ⟨d, hd⟩ := ih fun e' he' => hall e' (List.mem_cons_of_mem _ he')
            · exact .inl ⟨_, .undecided hv ht hts⟩
            · exact .inr ⟨d, .later hv ht hd⟩
        · exact .inr ⟨_, .notTruth hv hno⟩
      · exact .inr ⟨d, .operand hd⟩

/-- Where all operands have truth values, stopping at the first that decides loses nothing. -/
theorem looks_of_gives {row : Row} (b : Bool) {es : List Expr} {ts : List Truth}
    (hall : List.Forall₂ (fun e t => Gives row e (Truth.value t)) es ts) :
    ∃ seen, Looks row b es seen ∧ Truth.joinAll b seen = Truth.joinAll b ts := by
  induction hall with
  | nil => exact ⟨[], .nil, rfl⟩
  | @cons e t es ts he _ ih =>
      by_cases ht : t = .ofBool b
      · subst ht
        rw [Truth.value_ofBool] at he
        exact ⟨_, .decided he, by simp [Truth.joinAll, Truth.join_ofBool]⟩
      · obtain ⟨seen, hseen, heq⟩ := ih
        refine ⟨_, .undecided he ht hseen, ?_⟩
        simp only [Truth.joinAll, List.foldr_cons] at heq ⊢
        rw [heq]

/-- A call ends if its operands do. -/
theorem ends_call {row : Row} {op : Op} {es : List Expr} (hcount : op.Takes es.length)
    (hall : ∀ e ∈ es, e.Ends row) : (call op es).Ends row := by
  have hconnective : ∀ b, op.deciding? = some b → (call op es).Ends row := by
    intro b hop
    obtain ⟨ts, hts⟩ | ⟨d, hd⟩ := looks_or_stumbles b (call op es) hall
    · exact .inl ⟨_, .connective hop hts⟩
    · exact .inr ⟨d, .connective hop hd⟩
  have hcomparison : op.isComparison = true → es.length = 2 → (call op es).Ends row := by
    intro hop htwo
    obtain ⟨left, right, rfl⟩ := List.length_eq_two.mp htwo
    obtain ⟨a, ha⟩ | ⟨d, hd⟩ := hall left List.mem_cons_self
    · obtain ⟨b, hb⟩ | ⟨d, hd⟩ := hall right (List.mem_cons_of_mem _ List.mem_cons_self)
      · exact .inl ⟨_, .comparison hop ha hb⟩
      · exact .inr ⟨d, .right hop ha hd⟩
    · exact .inr ⟨d, .left hop hd⟩
  have hsingle : es.length = 1 → ∃ e, es = [e] ∧ e.Ends row := by
    intro hone
    obtain ⟨e, rfl⟩ := List.length_eq_one_iff.mp hone
    exact ⟨e, rfl, hall e List.mem_cons_self⟩
  cases op with
  | and => exact hconnective false rfl
  | or => exact hconnective true rfl
  | not =>
      obtain ⟨e, rfl, ⟨v, hv⟩ | ⟨d, hd⟩⟩ := hsingle hcount
      · obtain ⟨t, rfl⟩ | hno := truth_or_not v
        · exact .inl ⟨_, .not hv⟩
        · exact .inr ⟨_, .notTruth hv hno⟩
      · exact .inr ⟨d, .operand rfl rfl hd⟩
  | isNull =>
      obtain ⟨e, rfl, ⟨v, hv⟩ | ⟨d, hd⟩⟩ := hsingle hcount
      · exact .inl ⟨_, .isNull hv⟩
      · exact .inr ⟨d, .operand rfl rfl hd⟩
  | isNotNull =>
      obtain ⟨e, rfl, ⟨v, hv⟩ | ⟨d, hd⟩⟩ := hsingle hcount
      · exact .inl ⟨_, .isNotNull hv⟩
      · exact .inr ⟨d, .operand rfl rfl hd⟩
  | _ => exact hcomparison rfl hcount

mutual
/-- **An expression all of whose nodes are admitted ends on every row.** -/
theorem ends_of_admitted {row : Row} :
    ∀ {e : Expr}, (∀ e' ∈ e.nodes, e'.Admitted) → e.Ends row
  | .literal v, _ => .inl ⟨v, .literal⟩
  | .inputRef i, _ => by
      by_cases hi : i.toNat < row.length
      · exact .inl ⟨_, .inputRef (List.getElem?_eq_getElem hi)⟩
      · exact .inr ⟨_, .inputRef (Nat.le_of_not_lt hi)⟩
  | .call op operands, h => by
      rw [nodes, List.forall_mem_cons] at h
      exact ends_call h.1 (ends_of_admittedAll h.2)
  | .parameter _, h => (h _ List.mem_cons_self).elim
  | .outer _, h => (h _ List.mem_cons_self).elim
  | .field _ _, h => (h _ List.mem_cons_self).elim
theorem ends_of_admittedAll {row : Row} :
    ∀ {es : List Expr}, (∀ e' ∈ nodesAll es, e'.Admitted) → ∀ e ∈ es, e.Ends row
  | [], _ => by simp
  | e :: es, h => by
      rw [nodesAll, List.forall_mem_append] at h
      exact List.forall_mem_cons.mpr ⟨ends_of_admitted h.1, ends_of_admittedAll h.2⟩
end

end Expr

/-! ### Compiled expressions -/

namespace Code

variable {row : Row} {e : Expr} {es : List Expr} {c : Code} {cs : List Code} {op : Op}

/-- Code computes on a row what an expression means there. -/
structure Computes (row : Row) (e : Expr) (c : Code) : Prop where
  gives : ∀ v, e.Gives row v → c.eval row = .ok v
  breaks : ∀ d, e.Breaks row d → c.eval row = .error d

theorem evalConnect_of_looks {b : Bool} {source : Expr}
    (hall : List.Forall₂ (Computes row) es cs) : ∀ {sawNull : Bool} {ts : List Truth},
    Expr.Looks row b es ts → evalConnect row b source sawNull cs
      = .ok (Truth.join b (if sawNull then .unknown else .ofBool !b) (.joinAll b ts)).value := by
  induction hall with
  | nil =>
      intro sawNull ts h
      cases h
      cases b <;> cases sawNull <;> rfl
  | @cons e c es cs hc hcs ih =>
      intro sawNull ts h
      rw [evalConnect]
      cases h with
      | decided he =>
          rw [hc.gives _ he, Truth.joinAll, List.foldr_cons, Truth.join_deciding,
            Truth.value_ofBool]
          simp [bind, Except.bind, pure, Except.pure]
      | @undecided _ _ _ t ts he ht hes =>
          rw [hc.gives _ he, Truth.joinAll, List.foldr_cons, ← Truth.joinAll]
          obtain rfl | rfl := Truth.eq_of_ne_deciding ht
          · simp only [Truth.value, bind, Except.bind, ih hes, if_true]
            cases sawNull with
            | true => rw [if_pos rfl, Truth.join_unknown]
            | false => rw [if_neg Bool.false_ne_true, Truth.join_neutral]
          · rw [Truth.value_ofBool, Truth.join_neutral]
            simp [bind, Except.bind, ih hes]

theorem evalConnect_of_stumbles {b : Bool} {source : Expr} {d : EvalDefect}
    (hall : List.Forall₂ (Computes row) es cs) : ∀ {sawNull : Bool},
    Expr.Stumbles row b source es d → evalConnect row b source sawNull cs = .error d := by
  induction hall with
  | nil =>
      intro sawNull h
      cases h
  | @cons e c es cs hc hcs ih =>
      intro sawNull h
      rw [evalConnect]
      cases h with
      | operand he =>
          rw [hc.breaks _ he]
          rfl
      | @notTruth _ _ _ _ v he hv =>
          rw [hc.gives _ he]
          cases v with
          | null => exact absurd rfl (hv .unknown)
          | bool b' => exact absurd (Truth.value_ofBool b').symm (hv (.ofBool b'))
          | _ => rfl
      | @later _ _ _ _ t _ he ht hes =>
          rw [hc.gives _ he]
          obtain rfl | rfl := Truth.eq_of_ne_deciding ht
          · exact ih hes
          · rw [Truth.value_ofBool]
            simp [bind, Except.bind, ih hes]

/-! The code of a call is one of four, by its operator. -/

theorem ofCall_cases {source : Expr} (h : ofCall source op cs = .ok c) :
    (∃ b, op.deciding? = some b ∧ c = .connect b cs source) ∨
      (op = .not ∧ ∃ x, cs = [x] ∧ c = .negate x source) ∨
      (∃ x, cs = [x] ∧ (op = .isNull ∧ c = .nullTest true x ∨
        op = .isNotNull ∧ c = .nullTest false x)) ∨
      (op.isComparison = true ∧ ∃ l r, cs = [l, r] ∧ c = .compare op l r) := by
  unfold ofCall at h
  split at h
  · cases h
    exact .inl ⟨false, rfl, rfl⟩
  · cases h
    exact .inl ⟨true, rfl, rfl⟩
  · cases h
    exact .inr (.inl ⟨rfl, _, rfl, rfl⟩)
  · cases h
    exact .inr (.inr (.inl ⟨_, rfl, .inl ⟨rfl, rfl⟩⟩))
  · cases h
    exact .inr (.inr (.inl ⟨_, rfl, .inr ⟨rfl, rfl⟩⟩))
  · split at h
    · rename_i hop
      cases h
      exact .inr (.inr (.inr ⟨hop, _, _, rfl, rfl⟩))
    · cases h
  · cases h

/-- A call has code exactly if it has as many operands as its operator takes. -/
theorem ofCall_ok_iff {source : Expr} :
    (∃ c, ofCall source op cs = .ok c) ↔ op.Takes cs.length := by
  match cs with
  | [] => cases op <;> simp [ofCall, Op.Takes]
  | [x] => cases op <;> simp [ofCall, Op.Takes]
  | [l, r] => cases op <;> simp [ofCall, Op.Takes, Op.isComparison]
  | x :: y :: z :: rest => cases op <;> simp [ofCall, Op.Takes]

theorem computes_compare {left right : Expr} {l r : Code} (hop : op.isComparison = true)
    (hl : Computes row left l) (hr : Computes row right r) :
    Computes row (.call op [left, right]) (.compare op l r) where
  gives := by
    intro v h
    cases h with
    | comparison _ hleft hright =>
        rw [eval, hl.gives _ hleft, hr.gives _ hright]
        simp only [bind, Except.bind, Op.compared, Bool.or_eq_true]
        split <;> rfl
    | connective hdeciding _ => cases op <;> simp_all [Op.deciding?, Op.isComparison]
  breaks := by
    intro d h
    cases h with
    | left _ hleft =>
        rw [eval, hl.breaks _ hleft]
        rfl
    | right _ hleft hright =>
        rw [eval, hl.gives _ hleft, hr.breaks _ hright]
        rfl
    | connective hdeciding _ => cases op <;> simp_all [Op.deciding?, Op.isComparison]

theorem computes_connect {b : Bool} (hop : op.deciding? = some b)
    (hall : List.Forall₂ (Computes row) es cs) :
    Computes row (.call op es) (.connect b cs (.call op es)) where
  gives := by
    intro v h
    rw [eval]
    cases h with
    | @connective _ _ b' ts hop' hlooks =>
        obtain rfl : b' = b := by simpa [hop] using hop'.symm
        rw [evalConnect_of_looks hall hlooks, if_neg Bool.false_ne_true, Truth.join_neutral]
    | comparison hcomparison _ _ => cases op <;> simp_all [Op.deciding?, Op.isComparison]
    | _ => simp [Op.deciding?] at hop
  breaks := by
    intro d h
    rw [eval]
    cases h with
    | @connective _ _ b' _ hop' hstumbles =>
        obtain rfl : b' = b := by simpa [hop] using hop'.symm
        exact evalConnect_of_stumbles hall hstumbles
    | left hcomparison _ => cases op <;> simp_all [Op.deciding?, Op.isComparison]
    | right hcomparison _ _ => cases op <;> simp_all [Op.deciding?, Op.isComparison]
    | operand _ hno _ => rw [hop] at hno; cases hno
    | notTruth _ _ => simp [Op.deciding?] at hop

theorem computes_negate (hc : Computes row e c) :
    Computes row (.call .not [e]) (.negate c (.call .not [e])) where
  gives := by
    intro v h
    cases h with
    | connective hop _ => simp [Op.deciding?] at hop
    | @not _ t he =>
        rw [eval, hc.gives _ he]
        cases t <;> rfl
  breaks := by
    intro d h
    cases h with
    | connective hop _ => simp [Op.deciding?] at hop
    | operand _ _ he =>
        rw [eval, hc.breaks _ he]
        rfl
    | @notTruth _ v he hv =>
        rw [eval, hc.gives _ he]
        cases v with
        | null => exact absurd rfl (hv .unknown)
        | bool b => exact absurd (Truth.value_ofBool b).symm (hv (.ofBool b))
        | _ => rfl

theorem computes_nullTest (ifNull : Bool)
    (hop : op = if ifNull then .isNull else .isNotNull) (hc : Computes row e c) :
    Computes row (.call op [e]) (.nullTest ifNull c) where
  gives := by
    intro v h
    cases h with
    | connective hdeciding _ => cases ifNull <;> simp_all [Op.deciding?]
    | not _ => cases ifNull <;> simp at hop
    | isNull he =>
        obtain rfl : ifNull = true := by cases ifNull <;> simp_all
        rw [eval, hc.gives _ he]
        simp [bind, Except.bind, pure, Except.pure]
    | isNotNull he =>
        obtain rfl : ifNull = false := by cases ifNull <;> simp_all
        rw [eval, hc.gives _ he]
        simp [bind, Except.bind, pure, Except.pure]
  breaks := by
    intro d h
    cases h with
    | connective hdeciding _ => cases ifNull <;> simp_all [Op.deciding?]
    | operand _ _ he =>
        rw [eval, hc.breaks _ he]
        rfl
    | notTruth _ _ => cases ifNull <;> simp at hop

/-- The code of a call computes what the call means if the codes of its operands do. -/
theorem computes_ofCall (h : ofCall (.call op es) op cs = .ok c)
    (hall : List.Forall₂ (Computes row) es cs) : Computes row (.call op es) c := by
  obtain ⟨b, hop, rfl⟩ | ⟨rfl, x, rfl, rfl⟩ | ⟨x, rfl, ⟨rfl, rfl⟩ | ⟨rfl, rfl⟩⟩ |
    ⟨hop, l, r, rfl, rfl⟩ := ofCall_cases h
  · exact computes_connect hop hall
  · obtain ⟨e, es', he, hes, rfl⟩ := List.forall₂_cons_right_iff.mp hall
    obtain rfl := List.forall₂_nil_right_iff.mp hes
    exact computes_negate he
  · obtain ⟨e, es', he, hes, rfl⟩ := List.forall₂_cons_right_iff.mp hall
    obtain rfl := List.forall₂_nil_right_iff.mp hes
    exact computes_nullTest true rfl he
  · obtain ⟨e, es', he, hes, rfl⟩ := List.forall₂_cons_right_iff.mp hall
    obtain rfl := List.forall₂_nil_right_iff.mp hes
    exact computes_nullTest false rfl he
  · obtain ⟨left, es', hl, hes, rfl⟩ := List.forall₂_cons_right_iff.mp hall
    obtain ⟨right, es'', hr, hnil, rfl⟩ := List.forall₂_cons_right_iff.mp hes
    obtain rfl := List.forall₂_nil_right_iff.mp hnil
    exact computes_compare hop hl hr

theorem compile_call {input : Option Schema} {operands : List Expr}
    (h : compile input (.call op operands) = .ok c) :
    ∃ cs, compileAll input operands = .ok cs ∧ ofCall (.call op operands) op cs = .ok c := by
  simp only [compile, bind, Except.bind] at h
  split at h
  · cases h
  · rename_i cs hcs
    exact ⟨cs, hcs, h⟩

mutual
/-- **The code of an expression computes what the expression means**, whatever is known of the
rows when it is compiled. -/
theorem computes_compile {input : Option Schema} :
    ∀ {e : Expr} {c : Code}, compile input e = .ok c → Computes row e c
  | .literal v, c, h => by
      rw [compile] at h
      cases h
      exact ⟨fun _ hv => by cases hv; rfl, fun _ hd => by cases hd⟩
  | .inputRef i, c, h => by
      have hfetch : c = .fetch i := by
        cases input with
        | none => rw [compile] at h; cases h; rfl
        | some schema => rw [compile] at h; split at h <;> cases h; rfl
      subst hfetch
      refine ⟨fun v hv => ?_, fun d hd => ?_⟩
      · cases hv with
        | inputRef hv => rw [eval, hv]
      · cases hd with
        | inputRef hi => rw [eval, List.getElem?_eq_none hi]
  | .call op operands, c, h => by
      obtain ⟨cs, hcs, hcall⟩ := compile_call h
      exact computes_ofCall hcall (computes_compileAll hcs)
  | .parameter _, c, h => by
      rw [compile] at h
      · cases h
      all_goals simp
  | .outer _, c, h => by
      rw [compile] at h
      · cases h
      all_goals simp
  | .field _ _, c, h => by
      rw [compile] at h
      · cases h
      all_goals simp
theorem computes_compileAll {input : Option Schema} :
    ∀ {es : List Expr} {cs : List Code}, compileAll input es = .ok cs →
      List.Forall₂ (Computes row) es cs
  | [], cs, h => by
      rw [compileAll] at h
      cases h
      exact .nil
  | e :: es, cs, h => by
      simp only [compileAll, bind, Except.bind] at h
      split at h
      · cases h
      · rename_i c hc
        split at h
        · cases h
        · rename_i cs' hcs
          cases h
          exact .cons (computes_compile hc) (computes_compileAll hcs)
end

theorem length_compileAll {input : Option Schema} (h : compileAll input es = .ok cs) :
    es.length = cs.length := by
  have hall : List.Forall₂ (Computes []) es cs := computes_compileAll h
  exact hall.length_eq

mutual
/-- **An expression can be compiled exactly if all its nodes are admitted.** -/
theorem compile_ok_iff :
    ∀ {e : Expr}, (∃ c, compile none e = .ok c) ↔ ∀ e' ∈ e.nodes, e'.Admitted
  | .literal v => by simp [compile, Expr.nodes, Expr.Admitted]
  | .inputRef i => by simp [compile, Expr.nodes, Expr.Admitted]
  | .call op operands => by
      rw [Expr.nodes, List.forall_mem_cons, ← compileAll_ok_iff, Expr.Admitted]
      constructor
      · rintro ⟨c, hc⟩
        obtain ⟨cs, hcs, hcall⟩ := compile_call hc
        refine ⟨?_, cs, hcs⟩
        rw [length_compileAll hcs]
        exact ofCall_ok_iff.mp ⟨c, hcall⟩
      · rintro ⟨hcount, cs, hcs⟩
        rw [length_compileAll hcs] at hcount
        obtain ⟨c, hc⟩ : ∃ c, ofCall (.call op operands) op cs = .ok c := ofCall_ok_iff.mpr hcount
        refine ⟨c, ?_⟩
        rw [compile, hcs]
        exact hc
  | .parameter _ => by simp [compile, Expr.nodes, Expr.Admitted]
  | .outer _ => by simp [compile, Expr.nodes, Expr.Admitted]
  | .field _ _ => by simp [compile, Expr.nodes, Expr.Admitted]
theorem compileAll_ok_iff :
    ∀ {es : List Expr}, (∃ cs, compileAll none es = .ok cs) ↔
      ∀ e' ∈ Expr.nodesAll es, e'.Admitted
  | [] => by simp [compileAll, Expr.nodesAll]
  | e :: es => by
      rw [Expr.nodesAll, List.forall_mem_append, ← compile_ok_iff, ← compileAll_ok_iff, compileAll]
      cases compile none e with
      | error d => simp [bind, Except.bind]
      | ok c => cases compileAll none es <;> simp [bind, Except.bind, pure, Except.pure]
end

/-- Code that computes what an expression means there is determined by it. -/
theorem Computes.eval_eq_ok_iff (hc : Computes row e c) (he : e.Ends row) {v : Value} :
    c.eval row = .ok v ↔ e.Gives row v := by
  refine ⟨fun heval => ?_, hc.gives v⟩
  obtain ⟨v', hv'⟩ | ⟨d, hd⟩ := he
  · obtain rfl : v' = v := by simpa [hc.gives v' hv'] using heval
    exact hv'
  · simp [hc.breaks d hd] at heval

theorem Computes.eval_eq_error_iff (hc : Computes row e c) (he : e.Ends row) {d : EvalDefect} :
    c.eval row = .error d ↔ e.Breaks row d := by
  refine ⟨fun heval => ?_, hc.breaks d⟩
  obtain ⟨v, hv⟩ | ⟨d', hd'⟩ := he
  · simp [hc.gives v hv] at heval
  · obtain rfl : d' = d := by simpa [hc.breaks d' hd'] using heval
    exact hd'

end Code

namespace Scalar

/-- **Compiled expressions compute three-valued logic.**  Exactly the expressions all of whose
nodes are admitted can be compiled.  A compiled expression has on each row the value that the
expression gives there, and fails with a defect exactly if the expression breaks with it.  Where
every operand of a connective has a truth value, the connective gives their Kleene join. -/
theorem computes_three_valued (e : Expr) :
    ((∃ s, compile none e = .ok s) ↔ ∀ e' ∈ e.nodes, e'.Admitted) ∧
      (∀ s, compile none e = .ok s → ∀ row,
        (∀ v, s.eval row = .ok v ↔ e.Gives row v) ∧
          ∀ d, s.eval row = .error d ↔ e.Breaks row d) ∧
      ∀ op operands b, e = .call op operands → op.deciding? = some b → ∀ row ts,
        List.Forall₂ (fun operand t => Expr.Gives row operand (Truth.value t)) operands ts →
          e.Gives row (Truth.joinAll b ts).value := by
  refine ⟨?_, fun s hs row => ?_, ?_⟩
  · rw [← Code.compile_ok_iff, compile]
    cases Code.compile none e <;> simp [Except.map]
  · cases hc : Code.compile none e with
    | error d => simp [compile, hc, Except.map] at hs
    | ok c =>
        obtain rfl : (⟨e, c⟩ : Scalar) = s := by simpa [compile, hc, Except.map] using hs
        have hends : e.Ends row := Expr.ends_of_admitted (Code.compile_ok_iff.mp ⟨c, hc⟩)
        have hcomputes : Code.Computes row e c := Code.computes_compile hc
        exact ⟨fun v => hcomputes.eval_eq_ok_iff hends, fun d => hcomputes.eval_eq_error_iff hends⟩
  · rintro op operands b rfl hop row ts hall
    obtain ⟨seen, hseen, heq⟩ := Expr.looks_of_gives b hall
    exact heq ▸ .connective hop hseen

/-- A conjunction of an unknown and a false operand is false, and of an unknown and a number it
breaks. -/
theorem computes_three_valued_of_and : ∃ s,
    compile none (.call .and [.literal .null, .inputRef 0]) = .ok s ∧
      s.eval [.bool false] = .ok (.bool false) ∧
      s.eval [.int 7] = .error (.notBoolean (.int 7) (.call .and [.literal .null, .inputRef 0])) := by
  obtain ⟨hcompile, heval, hkleene⟩ :=
    computes_three_valued (.call .and [.literal .null, .inputRef 0])
  obtain ⟨s, hs⟩ := hcompile.mpr (by simp [Expr.nodes, Expr.nodesAll, Expr.Admitted, Op.Takes])
  refine ⟨s, hs, ?_, ?_⟩
  · exact ((heval s hs _).1 _).mpr <| hkleene _ _ false rfl rfl _ [.unknown, .no] <|
      .cons .literal <| .cons (.inputRef rfl) .nil
  · refine ((heval s hs _).2 _).mpr <| .connective rfl <| .later (t := .unknown) .literal
      (by decide) <| .notTruth (.inputRef rfl) fun t => ?_
    cases t <;> simp [Truth.value]

end Scalar

end StreamQuery
