/-
The network of a plan before its first step.

The operator that is built for a node computes from the rows of its inputs what the
plan says that the node yields.  Since the inputs of a task are the channels of the
nodes that feed its node, the network as a whole delivers at each channel what the node
of that channel yields, before anything has happened: nothing more if the node breaks, and all of
it otherwise.
-/
import StreamQuery.Proofs.Plan.Meaning
import StreamQuery.Proofs.Query.Delivery

namespace StreamQuery

namespace Assembly

variable {p : Plan} {cat : Catalog} {n : NodeId} {schemas : List Schema} {schema : Schema}
  {o : Operator} {rows : List Row}

/-! ### One operation -/

/-- The operator that runs an operation, schemas left aside. -/
def Realizes (cat : Catalog) : PlanNode → Operator → Prop
  | .scan table, o => ∃ t, cat.named? table = some t ∧ o = .values t.rows
  | .values _ rows, o => o = .values rows
  | .filter condition, o => ∃ s, Scalar.compile none condition = .ok s ∧ o = .filter s
  | .project exprs _, o => ∃ ss, exprs.mapM (Scalar.compile none) = .ok ss ∧ o = .project ss
  | .join condition, o => ∃ s, Scalar.compile none condition = .ok s ∧ o = .join s
  | .union, o => o = .union

theorem realizes_of_operator {op : PlanNode} (h : operator cat op schemas = .ok (o, schema)) :
    Realizes cat op o := by
  cases operator_eq_ok_iff.mp h with
  | scan htable => exact ⟨_, htable, rfl⟩
  | values hrows => rfl
  | filter hs => exact ⟨_, Scalar.compile_none_of_some hs, rfl⟩
  | project hss =>
      have hcompiled := hss.imp fun e s => Scalar.compile_none_of_some
      exact ⟨_, mapM_eq_ok_iff.mpr hcompiled, rfl⟩
  | join hs => exact ⟨_, Scalar.compile_none_of_some hs, rfl⟩
  | union hwidth => rfl

/-- The rows that inputs yield. -/
def Feeds (p : Plan) (cat : Catalog) (n : NodeId) (ins : Nat → List Row) : Prop :=
  ∀ (pos : Nat) (m : NodeId), (p.inputs n)[pos]? = some m → p.Yields cat m (ins pos)

theorem feeds_none (hin : p.inputs n = []) (ins : Nat → List Row) : Feeds p cat n ins := by
  intro pos m hm
  rw [hin] at hm
  simp at hm

theorem feeds_one {m : NodeId} (hin : p.inputs n = [m]) {ins : Nat → List Row} :
    Feeds p cat n ins ↔ p.Yields cat m (ins 0) := by
  unfold Feeds
  rw [hin]
  constructor
  · intro h
    exact h 0 m rfl
  · intro h pos m' hm
    cases pos with
    | zero => cases hm; exact h
    | succ pos => cases hm

theorem feeds_two {l r : NodeId} (hin : p.inputs n = [l, r]) {ins : Nat → List Row} :
    Feeds p cat n ins ↔ p.Yields cat l (ins 0) ∧ p.Yields cat r (ins 1) := by
  unfold Feeds
  rw [hin]
  constructor
  · intro h
    exact ⟨h 0 l rfl, h 1 r rfl⟩
  · intro h pos m hm
    match pos with
    | 0 => cases hm; exact h.1
    | 1 => cases hm; exact h.2
    | pos + 2 => cases hm

/-- What a node yields is what its operator computes from the rows that its inputs yield. -/
theorem rest_of_yields {op : PlanNode} (hnode : p.node? n = some op)
    (hcount : (p.inputs n).length = op.inputCount) (ho : Realizes cat op o)
    (h : p.Yields cat n rows) : ∃ ins, Feeds p cat n ins ∧ o.stage.rest ins = .ok rows := by
  cases h with
  | @scan _ table t _ hnode' hin htable hstored =>
      obtain rfl : op = .scan table := by simpa [hnode] using hnode'
      obtain ⟨t', ht', rfl⟩ := ho
      rw [htable] at ht'
      cases ht'
      exact ⟨fun _ => [], feeds_none hin _, Item.sendAll_eq_ok.mpr hstored⟩
  | @values _ schema' stored _ hnode' hin hstored =>
      obtain rfl : op = .values schema' stored := by simpa [hnode] using hnode'
      obtain rfl := ho
      exact ⟨fun _ => [], feeds_none hin _, Item.sendAll_eq_ok.mpr hstored⟩
  | @filter _ input condition s fed _ hnode' hin hs hfed hkept =>
      obtain rfl : op = .filter condition := by simpa [hnode] using hnode'
      obtain ⟨s', hs', rfl⟩ := ho
      rw [hs] at hs'
      cases hs'
      exact ⟨fun _ => fed, (feeds_one hin).mpr hfed, hkept⟩
  | @project _ input exprs names ss fed _ hnode' hin hss hfed hcomputed =>
      obtain rfl : op = .project exprs names := by simpa [hnode] using hnode'
      obtain ⟨ss', hss', rfl⟩ := ho
      rw [hss] at hss'
      cases hss'
      exact ⟨fun _ => fed, (feeds_one hin).mpr hfed, hcomputed⟩
  | @join _ left right condition s lefts rights _ hnode' hin hs hleft hright hkept =>
      obtain rfl : op = .join condition := by simpa [hnode] using hnode'
      obtain ⟨s', hs', rfl⟩ := ho
      rw [hs] at hs'
      cases hs'
      exact ⟨fun pos => if pos = 0 then lefts else rights, (feeds_two hin).mpr ⟨hleft, hright⟩,
        hkept⟩
  | @union _ first second firsts seconds hnode' hin hfirst hsecond =>
      obtain rfl : op = .union := by simpa [hnode] using hnode'
      obtain rfl := ho
      exact ⟨fun pos => if pos = 0 then firsts else seconds,
        (feeds_two hin).mpr ⟨hfirst, hsecond⟩, rfl⟩

/-- What the operator of a node computes from the rows that its inputs yield is what the node
yields. -/
theorem yields_of_rest {op : PlanNode} (hnode : p.node? n = some op)
    (hcount : (p.inputs n).length = op.inputCount) (ho : Realizes cat op o)
    {ins : Nat → List Row} (hins : Feeds p cat n ins) (hrest : o.stage.rest ins = .ok rows) :
    p.Yields cat n rows := by
  cases op with
  | scan table =>
      obtain ⟨t, ht, rfl⟩ := ho
      exact .scan hnode (List.length_eq_zero_iff.mp hcount) ht (Item.sendAll_eq_ok.mp hrest)
  | values schema' stored =>
      obtain rfl := ho
      exact .values hnode (List.length_eq_zero_iff.mp hcount) (Item.sendAll_eq_ok.mp hrest)
  | filter condition =>
      obtain ⟨s, hs, rfl⟩ := ho
      obtain ⟨m, hin⟩ := List.length_eq_one_iff.mp hcount
      exact .filter hnode hin hs ((feeds_one hin).mp hins) hrest
  | project exprs names =>
      obtain ⟨ss, hss, rfl⟩ := ho
      obtain ⟨m, hin⟩ := List.length_eq_one_iff.mp hcount
      exact .project hnode hin hss ((feeds_one hin).mp hins) hrest
  | join condition =>
      obtain ⟨s, hs, rfl⟩ := ho
      obtain ⟨l, r, hin⟩ := List.length_eq_two.mp hcount
      obtain ⟨hl, hr⟩ := (feeds_two hin).mp hins
      exact .join hnode hin hs hl hr hrest
  | union =>
      obtain rfl := ho
      obtain ⟨l, r, hin⟩ := List.length_eq_two.mp hcount
      obtain ⟨hl, hr⟩ := (feeds_two hin).mp hins
      obtain rfl : ins 0 ++ ins 1 = rows := by simpa [Operator.stage, Stage.rest] using hrest
      exact .union hnode hin hl hr

/-- When the operator of a node cannot compute its rows from those that its inputs yield, the node
breaks with its defect. -/
theorem breaks_of_rest {op : PlanNode} (hnode : p.node? n = some op)
    (hcount : (p.inputs n).length = op.inputCount) (ho : Realizes cat op o)
    {ins : Nat → List Row} (hins : Feeds p cat n ins) {d : RunDefect}
    (hrest : o.stage.rest ins = .error d) : p.Breaks cat n d := by
  cases op with
  | scan table =>
      obtain ⟨t, ht, rfl⟩ := ho
      obtain ⟨rfl, hmark⟩ := Item.sendAll_eq_error hrest
      exact .scan hnode ht hmark
  | values schema' stored =>
      obtain rfl := ho
      obtain ⟨rfl, hmark⟩ := Item.sendAll_eq_error hrest
      exact .values hnode hmark
  | filter condition =>
      obtain ⟨s, hs, rfl⟩ := ho
      obtain ⟨m, hin⟩ := List.length_eq_one_iff.mp hcount
      exact .filter hnode hin hs ((feeds_one hin).mp hins) hrest
  | project exprs names =>
      obtain ⟨ss, hss, rfl⟩ := ho
      obtain ⟨m, hin⟩ := List.length_eq_one_iff.mp hcount
      exact .project hnode hin hss ((feeds_one hin).mp hins) hrest
  | join condition =>
      obtain ⟨s, hs, rfl⟩ := ho
      obtain ⟨l, r, hin⟩ := List.length_eq_two.mp hcount
      obtain ⟨hl, hr⟩ := (feeds_two hin).mp hins
      exact .join hnode hin hs hl hr hrest
  | union =>
      obtain rfl := ho
      cases hrest

/-- Inputs that all yield rows feed the node. -/
theorem feeds_of_yields (h : ∀ m ∈ p.inputs n, ∃ rows, p.Yields cat m rows) :
    ∃ ins, Feeds p cat n ins := by
  have hat : ∀ pos : Nat, ∃ rows, ∀ m, (p.inputs n)[pos]? = some m → p.Yields cat m rows := by
    intro pos
    cases hm : (p.inputs n)[pos]? with
    | none => exact ⟨[], fun m hm' => by cases hm'⟩
    | some m =>
        obtain ⟨rows, hy⟩ := h m (List.mem_of_getElem? hm)
        exact ⟨rows, fun m' hm' => by cases hm'; exact hy⟩
  choose ins hins using hat
  exact ⟨ins, hins⟩

end Assembly

/-! ### All of them -/

namespace Network

variable {p : Plan} {cat : Catalog} {a : Assembly} {schemas : List Schema} {k : Nat} {t : Task}
  {rows : List Row}

/-- Before the first step a channel delivers only what the node of its task yields. -/
theorem yields_of_delivers (hl : Assembly.Layout p cat a.tasks schemas [a.output])
    (hd : (ofAssembly a).Delivers k rows) :
    ∀ {t : Task}, a.tasks[k]? = some t → p.Yields cat t.node rows := by
  induction hd with
  | closed hc hclosed =>
      obtain rfl := channels_ofAssembly hc
      exact absurd hclosed Channel.not_closed_new
  | @live k w s waiting c ins rest hw hlife hc hins hrest ih =>
      intro t ht
      obtain ⟨t', ht', rfl⟩ := workers_ofAssembly hw
      rw [ht] at ht'
      cases ht'
      cases hlife
      obtain rfl := channels_ofAssembly hc
      obtain ⟨op, ops, schema, hnode, hcount, -, -, hop⟩ := (hl.laid k t ht).operation
      refine Assembly.yields_of_rest hnode hcount (Assembly.realizes_of_operator hop) ?_ hrest
      intro pos m hm
      have hin := (hl.laid k t ht).inputs
      obtain ⟨hpos, rfl⟩ := List.getElem?_eq_some_iff.mp hm
      have hpos' : pos < t.inputs.length := hin.length_eq ▸ hpos
      obtain ⟨u, hu, hun⟩ := hin.get hpos hpos'
      have hyields := ih pos _ (List.getElem?_eq_getElem hpos') hu
      rw [hun] at hyields
      exact hyields

/-- Before the first step a channel delivers what the node of its task yields.  The inputs of a
task have smaller numbers, on which the induction is. -/
theorem delivers_of_yields (hl : Assembly.Layout p cat a.tasks schemas [a.output]) :
    ∀ {k : Nat} {t : Task} {rows : List Row}, a.tasks[k]? = some t → p.Yields cat t.node rows →
      (ofAssembly a).Delivers k rows := by
  intro k
  induction k using Nat.strong_induction_on with
  | _ k ih =>
      intro t rows ht hy
      have hlaid := hl.laid k t ht
      obtain ⟨op, ops, schema, hnode, hcount, -, -, hop⟩ := hlaid.operation
      obtain ⟨ins, hfeeds, hrest⟩ :=
        Assembly.rest_of_yields hnode hcount (Assembly.realizes_of_operator hop) hy
      have hw : (ofAssembly a).workers[k]?
          = some ⟨t.inputs, t.output, .working t.operator.stage false⟩ := by
        simp [ofAssembly, ht]
      have hc : (ofAssembly a).channels[k]? = some .new := by
        rw [ofAssembly, List.getElem?_map, ht]
        rfl
      refine Delivers.live hw rfl hc ?_ hrest
      intro pos i hi
      obtain ⟨hpos, hival⟩ := List.getElem?_eq_some_iff.mp hi
      have hpos' : pos < (p.inputs t.node).length := hlaid.inputs.length_eq.symm ▸ hpos
      obtain ⟨u, hu, hun⟩ := hlaid.inputs.get hpos' hpos
      have hival' : t.inputs.get ⟨pos, hpos⟩ = i := hival
      rw [hival'] at hu
      have hfed := hfeeds pos _ (List.getElem?_eq_getElem hpos')
      refine ih i (hlaid.earlier i (List.mem_of_getElem? hi)) hu ?_
      rw [hun]
      exact hfed

/-- A node of an assembled plan yields rows or breaks. -/
theorem yields_or_breaks (hl : Assembly.Layout p cat a.tasks schemas [a.output]) :
    ∀ {k : Nat} {t : Task}, a.tasks[k]? = some t →
      (∃ rows, p.Yields cat t.node rows) ∨ ∃ d, p.Breaks cat t.node d := by
  intro k
  induction k using Nat.strong_induction_on with
  | _ k ih =>
      intro t ht
      have hlaid := hl.laid k t ht
      obtain ⟨op, ops, schema, hnode, hcount, -, -, hop⟩ := hlaid.operation
      have ho := Assembly.realizes_of_operator hop
      by_cases hall : ∀ m ∈ p.inputs t.node, ∃ rows, p.Yields cat m rows
      · obtain ⟨ins, hins⟩ := Assembly.feeds_of_yields hall
        cases hrest : t.operator.stage.rest ins with
        | ok rows => exact .inl ⟨rows, Assembly.yields_of_rest hnode hcount ho hins hrest⟩
        | error d => exact .inr ⟨d, Assembly.breaks_of_rest hnode hcount ho hins hrest⟩
      · obtain ⟨m, hm⟩ := not_forall.mp hall
        obtain ⟨hmem, hno⟩ := Classical.not_imp.mp hm
        obtain ⟨pos, hpos, rfl⟩ := List.getElem_of_mem hmem
        have hpos' : pos < t.inputs.length := hlaid.inputs.length_eq ▸ hpos
        obtain ⟨u, hu, hun⟩ := hlaid.inputs.get hpos hpos'
        have hnode' : u.node = (p.inputs t.node)[pos] := hun
        rcases ih _ (hlaid.earlier _ (List.getElem_mem hpos')) hu with hy | ⟨d, hd⟩
        · rw [hnode'] at hy
          exact absurd hy hno
        · rw [hnode'] at hd
          exact .inr ⟨d, .input hmem hd⟩

end Network

end StreamQuery
