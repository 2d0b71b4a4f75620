/-
Plans that differ in the numbers of their nodes.

A renaming takes the nodes that are reached from the root of one plan to those of another,
no two to the same, and keeps operations and inputs.  Numbers matter to a plan in one way
only: a walk asks whether a node was visited, and a registry whether it has the output of a
node.  Both ask whether two numbers are the same, and a renaming keeps that.  So everything
that is built from the two plans is the same up to the renaming: the trees, the tasks, and
what is wrong if something is.

What the executor is given has no numbers of nodes in it, so the two plans are run alike.
Nodes that are not reached play no part in any of it.
-/
import Mathlib.Data.Set.Function
import StreamQuery.CommandLine.Run
import StreamQuery.Proofs.Plan.Meaning
import StreamQuery.Proofs.Plan.Root
import StreamQuery.Proofs.Plan.Derivation
import StreamQuery.Proofs.Query.Layout

namespace StreamQuery

/-! ### Renaming -/

/-- A fault with its node renamed. -/
def PlanFault.rename (f : NodeId → NodeId) : PlanFault → PlanFault
  | .shared n => .shared (f n)
  | reason => reason

/-- A defect with its node renamed. -/
def WiringDefect.rename (f : NodeId → NodeId) : WiringDefect → WiringDefect
  | .noInput node ordinal => .noInput (f node) ordinal
  | .unregistered node => .unregistered (f node)
  | .taken node => .taken (f node)

/-- What is wrong with a plan, with its node renamed. -/
def BuildError.rename (f : NodeId → NodeId) : BuildError → BuildError
  | .fault reason => .fault (reason.rename f)
  | .expression d => .expression d
  | .wiring d => .wiring (d.rename f)

mutual
/-- A tree with its nodes renamed. -/
def PlanTree.rename (f : NodeId → NodeId) : PlanTree → PlanTree
  | .fault reason => .fault (reason.rename f)
  | .node id op inputs => .node (f id) op (renameAll f inputs)
/-- Trees with their nodes renamed. -/
def PlanTree.renameAll (f : NodeId → NodeId) : List PlanTree → List PlanTree
  | [] => []
  | t :: ts => t.rename f :: renameAll f ts
end

/-- A task with its node renamed. -/
def Task.rename (f : NodeId → NodeId) (t : Task) : Task :=
  { t with node := f t.node }

/-- An assembly with the nodes of its tasks renamed. -/
def Assembly.rename (f : NodeId → NodeId) (a : Assembly) : Assembly :=
  { a with tasks := a.tasks.map (Task.rename f) }

namespace Plan

/-- A node is reached from the root. -/
def Reached (p : Plan) (n : NodeId) : Prop :=
  ∃ root, p.root = some root ∧ p.Reaches root n

/-- The nodes that are reached in one plan are those of another under other numbers. -/
structure Renames (p q : Plan) (f : NodeId → NodeId) : Prop where
  root : q.root = p.root.map f
  injective : Set.InjOn f {n | p.Reached n}
  node : ∀ n, p.Reached n → q.node? (f n) = p.node? n
  inputs : ∀ n, p.Reached n → q.inputs (f n) = (p.inputs n).map f

variable {p q : Plan} {f : NodeId → NodeId} {n m : NodeId} {visited : List NodeId}

theorem Reached.trans (h : p.Reached n) (hm : p.Reaches n m) : p.Reached m := by
  obtain ⟨root, hroot, hn⟩ := h
  exact ⟨root, hroot, hn.trans hm⟩

theorem Reached.input (h : p.Reached n) (hm : m ∈ p.inputs n) : p.Reached m :=
  h.trans (reaches_of_input hm)

namespace Renames

theorem input? (h : p.Renames q f) (hn : p.Reached n) (ordinal : Nat) :
    q.input? (f n) ordinal = (p.input? n ordinal).map f := by
  unfold Plan.input?
  rw [h.inputs n hn, List.getElem?_map]

theorem mem_map_iff (h : p.Renames q f) (hn : p.Reached n)
    (hvisited : ∀ k ∈ visited, p.Reached k) : f n ∈ visited.map f ↔ n ∈ visited := by
  rw [List.mem_map]
  constructor
  · rintro ⟨k, hk, hsame⟩
    exact h.injective (hvisited k hk) hn hsame ▸ hk
  · exact fun hmem => ⟨n, hmem, rfl⟩

/-! ### The way back -/

theorem follow (h : p.Renames q f) : ∀ (path : List Nat) {n : NodeId}, p.Reached n →
    q.follow (f n) path = (p.follow n path).map f := by
  intro path
  induction path with
  | nil => intro n _; rfl
  | cons i path ih =>
      intro n hn
      rw [Plan.follow, Plan.follow, h.inputs n hn, List.getElem?_map]
      cases hi : (p.inputs n)[i]? with
      | none => rfl
      | some m => exact ih (hn.input (List.mem_of_getElem? hi))

/-- What is reached in the other plan is what is reached, under its other number. -/
theorem reached_iff (h : p.Renames q f) : q.Reached m ↔ ∃ n, p.Reached n ∧ f n = m := by
  constructor
  · rintro ⟨root', hroot', path, hpath⟩
    rw [h.root] at hroot'
    obtain ⟨root, hroot, rfl⟩ := Option.map_eq_some_iff.mp hroot'
    have hreached : p.Reached root := ⟨root, hroot, .refl p root⟩
    rw [h.follow path hreached] at hpath
    obtain ⟨n, hn, rfl⟩ := Option.map_eq_some_iff.mp hpath
    exact ⟨n, hreached.trans ⟨path, hn⟩, rfl⟩
  · rintro ⟨n, ⟨root, hroot, path, hpath⟩, rfl⟩
    refine ⟨f root, by rw [h.root, hroot]; rfl, path, ?_⟩
    rw [h.follow path ⟨root, hroot, .refl p root⟩, hpath]
    rfl

/-- A renaming can be undone. -/
theorem symm (h : p.Renames q f) : ∃ g, q.Renames p g ∧ ∀ n, p.Reached n → g (f n) = n := by
  classical
  let g : NodeId → NodeId := Function.invFunOn f {n | p.Reached n}
  have hback : ∀ n, p.Reached n → g (f n) = n := fun n hn =>
    h.injective.leftInvOn_invFunOn hn
  refine ⟨g, ⟨?_, ?_, ?_, ?_⟩, hback⟩
  · rw [h.root]
    cases hroot : p.root with
    | none => rfl
    | some root => exact congrArg some (hback root ⟨root, hroot, .refl p root⟩).symm
  · intro m hm m' hm' hsame
    obtain ⟨n, hn, rfl⟩ := h.reached_iff.mp hm
    obtain ⟨n', hn', rfl⟩ := h.reached_iff.mp hm'
    rw [hback n hn, hback n' hn'] at hsame
    rw [hsame]
  · intro m hm
    obtain ⟨n, hn, rfl⟩ := h.reached_iff.mp hm
    rw [hback n hn, h.node n hn]
  · intro m hm
    obtain ⟨n, hn, rfl⟩ := h.reached_iff.mp hm
    have hsame : (p.inputs n).map (g ∘ f) = (p.inputs n).map id :=
      List.map_congr_left fun k hk => hback k (hn.input hk)
    rw [hback n hn, h.inputs n hn, List.map_map, hsame, List.map_id]

/-! ### Rows -/

/-- A renamed node yields the same rows. -/
theorem yields (h : p.Renames q f) {c : Catalog} {n : NodeId} {rows : List Row}
    (hy : p.Yields c n rows) : p.Reached n → q.Yields c (f n) rows := by
  induction hy with
  | scan hnode hin htable hstored =>
      intro hn
      have hinputs := h.inputs _ hn
      rw [hin] at hinputs
      exact .scan ((h.node _ hn).trans hnode) hinputs htable hstored
  | values hnode hin hstored =>
      intro hn
      have hinputs := h.inputs _ hn
      rw [hin] at hinputs
      exact .values ((h.node _ hn).trans hnode) hinputs hstored
  | filter hnode hin hs hrows hkept ih =>
      intro hn
      have hinputs := h.inputs _ hn
      rw [hin] at hinputs
      exact .filter ((h.node _ hn).trans hnode) hinputs hs (ih (hn.input (by simp [hin]))) hkept
  | project hnode hin hss hrows hcomputed ih =>
      intro hn
      have hinputs := h.inputs _ hn
      rw [hin] at hinputs
      exact .project ((h.node _ hn).trans hnode) hinputs hss (ih (hn.input (by simp [hin])))
        hcomputed
  | join hnode hin hs hleft hright hkept ihl ihr =>
      intro hn
      have hinputs := h.inputs _ hn
      rw [hin] at hinputs
      exact .join ((h.node _ hn).trans hnode) hinputs hs (ihl (hn.input (by simp [hin])))
        (ihr (hn.input (by simp [hin]))) hkept
  | union hnode hin hfirst hsecond ihf ihs =>
      intro hn
      have hinputs := h.inputs _ hn
      rw [hin] at hinputs
      exact .union ((h.node _ hn).trans hnode) hinputs (ihf (hn.input (by simp [hin])))
        (ihs (hn.input (by simp [hin])))

theorem answers (h : p.Renames q f) {c : Catalog} {rows : List Row} (ha : p.Answers c rows) :
    q.Answers c rows := by
  obtain ⟨root, hroot, hy⟩ := ha
  exact ⟨f root, by rw [h.root, hroot]; rfl, h.yields hy ⟨root, hroot, .refl p root⟩⟩

theorem answers_iff (h : p.Renames q f) {c : Catalog} {rows : List Row} :
    q.Answers c rows ↔ p.Answers c rows := by
  obtain ⟨g, hg, -⟩ := h.symm
  exact ⟨hg.answers, h.answers⟩

/-! ### The walk -/

theorem walkAll {fuel : Nat}
    (hwalk : ∀ n visited, p.Reached n → (∀ k ∈ visited, p.Reached k) →
      q.walk fuel (f n) (visited.map f)
        = ((p.walk fuel n visited).1.rename f, (p.walk fuel n visited).2.map f))
    (ns : List NodeId) : ∀ visited, (∀ n ∈ ns, p.Reached n) → (∀ k ∈ visited, p.Reached k) →
      q.walkAll fuel (ns.map f) (visited.map f)
        = (PlanTree.renameAll f (p.walkAll fuel ns visited).1,
          (p.walkAll fuel ns visited).2.map f) := by
  induction ns with
  | nil => intro visited _ _; rfl
  | cons n ns ih =>
      intro visited hns hvisited
      obtain ⟨hn, hrest⟩ := List.forall_mem_cons.mp hns
      have hvisited' : ∀ k ∈ (p.walk fuel n visited).2, p.Reached k := by
        intro k hk
        rcases p.reaches_of_mem_walk fuel n visited k hk with hbefore | hreach
        · exact hvisited k hbefore
        · exact hn.trans hreach
      rw [List.map_cons, Plan.walkAll, hwalk n visited hn hvisited]
      simp only [ih _ hrest hvisited', Plan.walkAll, PlanTree.renameAll]

/-- The walk from a renamed node gives the renamed tree. -/
theorem walk (h : p.Renames q f) : ∀ fuel n visited, p.Reached n →
    (∀ k ∈ visited, p.Reached k) → q.walk fuel (f n) (visited.map f)
      = ((p.walk fuel n visited).1.rename f, (p.walk fuel n visited).2.map f) := by
  intro fuel
  induction fuel with
  | zero => intro n visited _ _; rfl
  | succ fuel ih =>
      intro n visited hn hvisited
      rw [walk_succ, walk_succ]
      by_cases hmem : n ∈ visited
      · rw [if_pos hmem, if_pos ((h.mem_map_iff hn hvisited).mpr hmem)]
        rfl
      · rw [if_neg hmem, if_neg (fun hm => hmem ((h.mem_map_iff hn hvisited).mp hm)), h.node n hn,
          h.inputs n hn, List.length_map]
        cases p.node? n with
        | none => rfl
        | some op =>
            by_cases hcount : (p.inputs n).length = op.inputCount
            · have hbelow := walkAll ih (p.inputs n) (n :: visited) (fun m hm => hn.input hm)
                (List.forall_mem_cons.mpr ⟨hn, hvisited⟩)
              rw [List.map_cons] at hbelow
              simp only [if_pos hcount, hbelow]
              rfl
            · simp only [if_neg hcount]
              rfl

/-- A renamed plan has the renamed tree, however many nodes either has. -/
theorem tree (h : p.Renames q f) : q.tree = p.tree.rename f := by
  unfold Plan.tree
  rw [h.root]
  cases hroot : p.root with
  | none => rfl
  | some root =>
      have hreached : p.Reached root := ⟨root, hroot, .refl p root⟩
      have hp := p.walk_eq_of_room (p.graph.size + 1) (max p.graph.size q.graph.size + 1) root []
        (by rw [unvisited_nil]; omega) (by rw [unvisited_nil]; omega)
      have hq := q.walk_eq_of_room (q.graph.size + 1) (max p.graph.size q.graph.size + 1) (f root)
        [] (by rw [unvisited_nil]; omega) (by rw [unvisited_nil]; omega)
      have hwalk := h.walk (max p.graph.size q.graph.size + 1) root [] hreached
        (fun k hk => absurd hk List.not_mem_nil)
      rw [List.map_nil] at hwalk
      simp only [Option.map_some, hp, hq, hwalk]

end Renames

/-! ### Nodes of a tree -/

theorem reached_of_walkAll {fuel : Nat}
    (hwalk : ∀ n visited, p.Reached n → ∀ k ∈ (p.walk fuel n visited).1.ids, p.Reached k)
    (ns : List NodeId) : ∀ visited, (∀ n ∈ ns, p.Reached n) →
      ∀ k ∈ PlanTree.idsAll (p.walkAll fuel ns visited).1, p.Reached k := by
  induction ns with
  | nil => intro visited _ k hk; cases hk
  | cons n ns ih =>
      intro visited hns k hk
      obtain ⟨hn, hrest⟩ := List.forall_mem_cons.mp hns
      rw [Plan.walkAll, PlanTree.idsAll] at hk
      rcases List.mem_append.mp hk with hk | hk
      · exact hwalk n visited hn k hk
      · exact ih _ hrest k hk

/-- The nodes of a walk are reached. -/
theorem reached_of_walk (p : Plan) : ∀ fuel n visited, p.Reached n →
    ∀ k ∈ (p.walk fuel n visited).1.ids, p.Reached k := by
  intro fuel
  induction fuel with
  | zero => intro n visited _ k hk; cases hk
  | succ fuel ih =>
      intro n visited hn k hk
      rw [walk_succ] at hk
      split at hk
      · cases hk
      · split at hk
        · cases hk
        · split at hk
          · rcases List.mem_cons.mp hk with rfl | hbelow
            · exact hn
            · exact reached_of_walkAll ih _ _ (fun m hm => hn.input hm) k hbelow
          · cases hk

theorem reached_of_tree (p : Plan) : ∀ k ∈ p.tree.ids, p.Reached k := by
  intro k hk
  cases hroot : p.root with
  | none =>
      unfold tree at hk
      rw [hroot] at hk
      cases hk
  | some root =>
      rw [tree_of_root hroot] at hk
      exact p.reached_of_walk _ root [] ⟨root, hroot, .refl p root⟩ k hk

end Plan

/-! ### Outcomes that match -/

/-- Two attempts come out alike: both fail, with the failure of one being that of the other under a
renaming, or both succeed, with results that are related. -/
def Matching {ε α β : Type} (rename : ε → ε) (R : α → β → Prop) : Except ε α → Except ε β → Prop
  | .error e, .error e' => e' = rename e
  | .ok a, .ok b => R a b
  | _, _ => False

namespace Matching

variable {ε α β γ δ : Type} {rename : ε → ε} {R : α → β → Prop} {S : γ → δ → Prop}
  {x : Except ε α} {y : Except ε β}

theorem cases (h : Matching rename R x y) :
    (∃ e, x = .error e ∧ y = .error (rename e)) ∨ ∃ a b, x = .ok a ∧ y = .ok b ∧ R a b := by
  cases x with
  | error e =>
      cases y with
      | error e' => exact .inl ⟨e, rfl, congrArg Except.error h⟩
      | ok b => exact h.elim
  | ok a =>
      cases y with
      | error e' => exact h.elim
      | ok b => exact .inr ⟨a, b, rfl, rfl, h⟩

theorem bind {g : α → Except ε γ} {k : β → Except ε δ} (h : Matching rename R x y)
    (hgk : ∀ a b, R a b → Matching rename S (g a) (k b)) :
    Matching rename S (x >>= g) (y >>= k) := by
  obtain ⟨e, rfl, rfl⟩ | ⟨a, b, rfl, rfl, hab⟩ := h.cases
  · exact rfl
  · exact hgk a b hab

end Matching

namespace Assembly

open Plan (Reached Renames)

variable {p q : Plan} {f : NodeId → NodeId} {c : Catalog}

/-- A registry has the outputs of the nodes that are reached under their other numbers. -/
def WiringMatches (p : Plan) (f : NodeId → NodeId) (w w' : Wiring Nat) : Prop :=
  ∀ n, p.Reached n → w'.output? (f n) = w.output? n

/-- What is built so far, with the nodes renamed. -/
structure StateMatches (p : Plan) (f : NodeId → NodeId) (s s' : State) : Prop where
  tasks : s'.tasks = s.tasks.map (Task.rename f)
  wiring : WiringMatches p f s.wiring s'.wiring

variable {w w' : Wiring Nat} {s s' : State} {n : NodeId}

theorem WiringMatches.put (h : WiringMatches p f w w') (hr : p.Renames q f) (hn : p.Reached n)
    (o : Output Nat) : WiringMatches p f (w.put n o) (w'.put (f n) o) := by
  intro m hm
  rw [Wiring.output?_put, Wiring.output?_put, h m hm]
  by_cases hsame : m = n
  · rw [if_pos hsame, if_pos (congrArg f hsame)]
  · rw [if_neg hsame, if_neg fun heq => hsame (hr.injective hm hn heq)]

theorem WiringMatches.takeOutput (h : WiringMatches p f w w') (hr : p.Renames q f)
    (hn : p.Reached n) :
    Matching (WiringDefect.rename f) (fun a b => b.1 = a.1 ∧ WiringMatches p f a.2 b.2)
      (w.takeOutput n) (w'.takeOutput (f n)) := by
  unfold Wiring.takeOutput
  rw [h n hn]
  cases w.output? n with
  | none => rfl
  | some o =>
      by_cases htaken : o.taken = true
      · simp only [htaken, if_true]
        rfl
      · simp only [htaken, Bool.false_eq_true, if_false]
        exact ⟨rfl, h.put hr hn _⟩

theorem WiringMatches.takeInputs (hr : p.Renames q f) (hn : p.Reached n) : ∀ (count ordinal : Nat)
    {w w' : Wiring Nat}, WiringMatches p f w w' →
    Matching (WiringDefect.rename f) (fun a b => b.1 = a.1 ∧ WiringMatches p f a.2 b.2)
      (w.takeInputs p n ordinal count) (w'.takeInputs q (f n) ordinal count) := by
  intro count
  induction count with
  | zero => intro ordinal w w' h; exact ⟨rfl, h⟩
  | succ count ih =>
      intro ordinal w w' h
      have hfirst : Matching (WiringDefect.rename f)
          (fun a b => b.1 = a.1 ∧ WiringMatches p f a.2 b.2)
          (w.takeInput p n ordinal) (w'.takeInput q (f n) ordinal) := by
        unfold Wiring.takeInput
        rw [hr.input? hn]
        cases hinput : p.input? n ordinal with
        | none => rfl
        | some m => exact h.takeOutput hr (hn.input (List.mem_of_getElem? hinput))
      refine hfirst.bind ?_
      rintro ⟨channel, w₁⟩ ⟨channel', w₁'⟩ ⟨rfl, h₁⟩
      refine (ih (ordinal + 1) h₁).bind ?_
      rintro ⟨rest, w₂⟩ ⟨rest', w₂'⟩ ⟨rfl, h₂⟩
      exact ⟨rfl, h₂⟩

/-- Connecting a renamed node does the same under the other numbers. -/
theorem StateMatches.connect (h : StateMatches p f s s') (hr : p.Renames q f) (hn : p.Reached n)
    (o : Operator) : Matching (BuildError.rename f) (StateMatches p f)
      (connect p n o s) (connect q (f n) o s') := by
  have hlength : s'.tasks.length = s.tasks.length := by rw [h.tasks, List.length_map]
  have hregister : WiringMatches p f (s.wiring.register n s.tasks.length).2
      (s'.wiring.register (f n) s.tasks.length).2 := h.wiring.put hr hn _
  have htake := WiringMatches.takeInputs hr hn o.inputCount 0 hregister
  unfold Assembly.connect
  simp only [hlength]
  obtain ⟨d, hleft, hright⟩ | ⟨a, b, hleft, hright, hinputs, hwiring⟩ := htake.cases
  · rw [hleft, hright]
    exact rfl
  · rw [hleft, hright]
    refine ⟨?_, hwiring⟩
    simp only [h.tasks, hinputs, List.map_append, List.map_cons, List.map_nil, Task.rename]

/-- What is wrong with an operation alone names no node. -/
theorem rename_of_operator {op : PlanNode} {ins : List Schema} {err : BuildError}
    (h : operator c op ins = .error err) : err.rename f = err := by
  obtain ⟨d, rfl⟩ | ⟨reason, rfl, hnot⟩ := operator_error_cases h
  · rfl
  · cases reason with
    | shared n => exact absurd rfl (hnot n)
    | _ => rfl

theorem operator_matches (f : NodeId → NodeId) (op : PlanNode) (ins : List Schema) :
    Matching (BuildError.rename f) (· = ·) (operator c op ins) (operator c op ins) := by
  cases hop : operator c op ins with
  | ok built => exact rfl
  | error err => exact (rename_of_operator hop).symm

mutual
/-- The tasks of a renamed tree are those of the tree, renamed. -/
theorem add_matches (hr : p.Renames q f) : ∀ (t : PlanTree) {s s' : State},
    (∀ k ∈ t.ids, p.Reached k) → StateMatches p f s s' →
    Matching (BuildError.rename f) (fun a b => b.1 = a.1 ∧ StateMatches p f a.2 b.2)
      (add c p t s) (add c q (t.rename f) s')
  | .fault reason, s, s', _, _ => rfl
  | .node id op inputs, s, s', hids, h => by
      obtain ⟨hid, hbelow⟩ := List.forall_mem_cons.mp hids
      refine (addAll_matches hr inputs hbelow h).bind ?_
      rintro ⟨ins, s₁⟩ ⟨ins', s₁'⟩ ⟨rfl, h₁⟩
      refine (operator_matches f op _).bind ?_
      rintro ⟨o, schema⟩ _ rfl
      refine (h₁.connect hr hid o).bind ?_
      exact fun s₂ s₂' h₂ => ⟨rfl, h₂⟩
theorem addAll_matches (hr : p.Renames q f) : ∀ (ts : List PlanTree) {s s' : State},
    (∀ k ∈ PlanTree.idsAll ts, p.Reached k) → StateMatches p f s s' →
    Matching (BuildError.rename f) (fun a b => b.1 = a.1 ∧ StateMatches p f a.2 b.2)
      (addAll c p ts s) (addAll c q (PlanTree.renameAll f ts) s')
  | [], s, s', _, h => ⟨rfl, h⟩
  | t :: ts, s, s', hids, h => by
      rw [PlanTree.idsAll] at hids
      refine (add_matches hr t (fun k hk => hids k (List.mem_append_left _ hk)) h).bind ?_
      rintro ⟨schema, s₁⟩ ⟨schema', s₁'⟩ ⟨rfl, h₁⟩
      refine (addAll_matches hr ts (fun k hk => hids k (List.mem_append_right _ hk)) h₁).bind ?_
      rintro ⟨ins, s₂⟩ ⟨ins', s₂'⟩ ⟨rfl, h₂⟩
      exact ⟨rfl, h₂⟩
end

end Assembly

namespace Plan.Renames

open Assembly

variable {p q : Plan} {f : NodeId → NodeId} {c : Catalog}

theorem assemble_matches (h : p.Renames q f) (c : Catalog) :
    Matching (BuildError.rename f) (fun a b => b = a.rename f) (p.assemble c) (q.assemble c) := by
  have hstart : StateMatches p f ⟨[], .empty⟩ ⟨[], .empty⟩ := ⟨rfl, fun _ _ => rfl⟩
  unfold Plan.assemble
  rw [h.tree]
  refine (add_matches h p.tree p.reached_of_tree hstart).bind ?_
  rintro ⟨schema, s⟩ ⟨schema', s'⟩ ⟨rfl, hs⟩
  rw [h.root]
  cases hroot : p.root with
  | none => rfl
  | some root =>
      have htake := hs.wiring.takeOutput h ⟨root, hroot, .refl p root⟩
      simp only [Option.map_some]
      obtain ⟨d, hleft, hright⟩ | ⟨a, b, hleft, hright, houtput, -⟩ := htake.cases
      · rw [hleft, hright]
        exact rfl
      · rw [hleft, hright]
        show Assembly.mk _ _ _ = Assembly.rename f ⟨s.tasks, a.1, schema'⟩
        rw [hs.tasks, houtput]
        rfl

/-- **A renamed plan is assembled to the renamed tasks, or fails as the plan does.** -/
theorem assemble (h : p.Renames q f) (c : Catalog) : q.assemble c
    = ((p.assemble c).map (Assembly.rename f)).mapError (BuildError.rename f) := by
  obtain ⟨err, hp, hq⟩ | ⟨a, b, hp, hq, rfl⟩ := (h.assemble_matches c).cases
  · rw [hp, hq]
    rfl
  · rw [hp, hq]
    rfl

end Plan.Renames

/-! ### Running -/

/-- An executor does not see the numbers of nodes. -/
theorem Executor.configure_rename (e : Executor) (f : NodeId → NodeId) (a : Assembly) :
    e.configure (a.rename f) = e.configure a := by
  have hnetwork : Network.ofAssembly (a.rename f) = Network.ofAssembly a := by
    unfold Network.ofAssembly Assembly.rename
    simp only [List.map_map]
    rfl
  unfold Executor.configure
  rw [hnetwork]
  rfl

namespace Plan.Renames

variable {p q : Plan} {f : NodeId → NodeId} {c : Catalog}

/-- A query of a renamed plan is answered alike, and if it cannot be run the failure is the same but
for the number of a node. -/
theorem query (h : p.Renames q f) (c : Catalog) : CommandLine.query c q =
    match p.assemble c with
    | .error err => .error (.ofBuild (err.rename f))
    | .ok _ => CommandLine.query c p := by
  unfold CommandLine.query
  rw [h.assemble c]
  cases hp : p.assemble c with
  | error err => rfl
  | ok a =>
      simp only [Except.map, Except.mapError, Executor.configure_rename]
      have hlength : (a.rename f).tasks.length = a.tasks.length := List.length_map _
      rw [hlength]

end Plan.Renames

end StreamQuery
