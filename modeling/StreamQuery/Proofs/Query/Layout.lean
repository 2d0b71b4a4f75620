/-
How the tasks of an assembled plan hang together.

The walk over a plan and the building of tasks are two recursions, one behind the
other.  What is proved here is what they achieve together: the tasks of an assembly
are numbered like their output channels, each reads only channels with smaller
numbers, and each channel but that of the answer is read by exactly one task, at
exactly one place.  `Layout` says so of the tasks built so far, where some channels
may still be loose, and also which node of the plan each task comes from and
which schema was derived for it.

The induction is on the walk.  It carries that every node that has a task was
visited, which is why the node of a new task is a new one, and that the registry
holds the loose channels as not yet handed out, which is why the inputs of a task
are the channels of the nodes that feed it.
-/
import Mathlib.Data.List.Forall2
import Mathlib.Data.List.Range
import StreamQuery.Proofs.Plan.Derivation

namespace StreamQuery

namespace Wiring

variable {κ : Type} {w : Wiring κ}

theorem output?_put (w : Wiring κ) (node other : NodeId) (o : Output κ) :
    (w.put node o).output? other = if other = node then some o else w.output? other := by
  unfold output? put
  rw [List.lookup_cons]
  by_cases h : other = node
  · simp [h]
  · rw [if_neg h]
    simp only [beq_iff_eq.not.mpr h]
    induction w.outputs with
    | nil => rfl
    | cons e outputs ih =>
        obtain ⟨n, o'⟩ := e
        by_cases hn : n = node
        · subst hn
          simp [List.lookup_cons, beq_iff_eq.not.mpr h, ih]
        · simp [hn, List.lookup_cons, ih]

theorem output?_register (w : Wiring κ) (node other : NodeId) (channel : κ) :
    (w.register node channel).2.output? other
      = if other = node then some ⟨channel, false⟩ else w.output? other := by
  simp only [register]
  exact output?_put ..

/-- The inputs of a node are handed out when the nodes that feed it have registered their
outputs and nobody has taken them; afterwards these are taken. -/
theorem takeInputs_of_loose {p : Plan} {node : NodeId} {ns : List NodeId} {channels : List κ} :
    ∀ {ordinal : Nat} {w : Wiring κ}, (p.inputs node).drop ordinal = ns → ns.Nodup →
      List.Forall₂ (fun n channel => w.output? n = some ⟨channel, false⟩) ns channels →
      ∃ w' : Wiring κ, w.takeInputs p node ordinal ns.length = .ok (channels, w') ∧
        ∀ m, w'.output? m
          = if m ∈ ns then (w.output? m).map fun o => { o with taken := true }
            else w.output? m := by
  induction ns generalizing channels with
  | nil =>
      intro ordinal w _ _ hout
      cases hout
      exact ⟨w, rfl, fun m => by simp⟩
  | cons n ns ih =>
      intro ordinal w hdrop hnodup hout
      cases hout with
      | @cons _ channel _ rest hn hrest =>
          obtain ⟨hnew, hnodup'⟩ := List.nodup_cons.mp hnodup
          have hinput : p.input? node ordinal = some n := by
            unfold Plan.input?
            rw [← List.head?_drop, hdrop]
            rfl
          have hdrop' : (p.inputs node).drop (ordinal + 1) = ns := by
            rw [← List.tail_drop, hdrop]
            rfl
          have hkeep : List.Forall₂
              (fun m c => (w.put n ⟨channel, true⟩).output? m = some ⟨c, false⟩) ns rest := by
            have hmem : List.Forall₂
                (fun m c => m ∈ ns ∧ w.output? m = some ⟨c, false⟩) ns rest :=
              (List.forall₂_and_left _ _).mpr ⟨fun m hm => hm, hrest⟩
            refine hmem.imp ?_
            intro m c hm
            rw [output?_put, if_neg (by rintro rfl; exact hnew hm.1)]
            exact hm.2
          obtain ⟨w', htake, hw'⟩ := ih hdrop' hnodup' hkeep
          refine ⟨w', ?_, ?_⟩
          · simp only [List.length_cons, takeInputs, takeInput, hinput, takeOutput, hn]
            simp only [Bool.false_eq_true, ↓reduceIte, bind, Except.bind, htake]
            rfl
          · intro m
            rw [hw' m, output?_put]
            by_cases hm : m = n
            · subst hm
              simp [hnew, hn]
            · simp [hm]

end Wiring

namespace Plan

/-! ### The walk, node by node -/

/-- The walks below the inputs of a node, one after the other. -/
def walkAll (p : Plan) (fuel : Nat) : List NodeId → List NodeId → List PlanTree × List NodeId
  | [], visited => ([], visited)
  | n :: ns, visited =>
    let (t, visited) := p.walk fuel n visited
    let (ts, visited) := walkAll p fuel ns visited
    (t :: ts, visited)

theorem foldl_walk (p : Plan) (fuel : Nat) (ns : List NodeId) :
    ∀ (done : List PlanTree) (visited : List NodeId),
      ns.foldl (fun (done, visited) input =>
        let (t, visited) := p.walk fuel input visited
        (done ++ [t], visited)) (done, visited)
      = (done ++ (p.walkAll fuel ns visited).1, (p.walkAll fuel ns visited).2) := by
  induction ns with
  | nil => intro done visited; simp [walkAll]
  | cons n ns ih =>
      intro done visited
      rw [List.foldl_cons]
      refine (ih _ _).trans ?_
      simp [walkAll]

theorem walk_succ (p : Plan) (fuel : Nat) (n : NodeId) (visited : List NodeId) :
    p.walk (fuel + 1) n visited
      = if n ∈ visited then (.fault (.shared n), visited)
        else match p.node? n with
          | none => (.fault .malformed, n :: visited)
          | some op =>
            if (p.inputs n).length = op.inputCount then
              (.node n op (p.walkAll fuel (p.inputs n) (n :: visited)).1,
                (p.walkAll fuel (p.inputs n) (n :: visited)).2)
            else (.fault .malformed, n :: visited) := by
  by_cases hmem : n ∈ visited
  · rw [walk, if_pos hmem, if_pos hmem]
  · rw [walk, if_neg hmem, if_neg hmem]
    cases p.node? n with
    | none => rfl
    | some op =>
        by_cases hcount : (p.inputs n).length = op.inputCount
        · simp only [if_pos hcount, foldl_walk, List.nil_append]
        · simp only [if_neg hcount]

theorem walkAll_mono {p : Plan} {fuel : Nat}
    (h : ∀ n visited, visited ⊆ (p.walk fuel n visited).2) (ns : List NodeId) :
    ∀ visited, visited ⊆ (p.walkAll fuel ns visited).2 := by
  induction ns with
  | nil => intro visited; exact List.Subset.refl _
  | cons n ns ih =>
      intro visited
      exact List.Subset.trans (h n visited) (ih _)

/-- A walk forgets no node that was visited. -/
theorem walk_mono (p : Plan) : ∀ fuel n visited, visited ⊆ (p.walk fuel n visited).2 := by
  intro fuel
  induction fuel with
  | zero => intro n visited; exact List.Subset.refl _
  | succ fuel ih =>
      intro n visited
      rw [walk_succ]
      split
      · exact List.Subset.refl _
      · split
        · exact List.subset_cons_self _ _
        · split
          · exact List.Subset.trans (List.subset_cons_self _ _) (walkAll_mono ih _ _)
          · exact List.subset_cons_self _ _

end Plan

namespace Assembly

/-! ### What holds of the tasks built so far -/

/-- A task at its place among the tasks of a plan: its number, where its inputs come from and
which operation it runs. -/
structure Laid (p : Plan) (c : Catalog) (tasks : List Task) (schemas : List Schema) (k : Nat)
    (t : Task) : Prop where
  output : t.output = k
  earlier : ∀ i ∈ t.inputs, i < k
  /-- Its inputs are the channels of the nodes that feed its node, in order. -/
  inputs : List.Forall₂ (fun n i => ∃ u, tasks[i]? = some u ∧ u.node = n)
    (p.inputs t.node) t.inputs
  /-- Its operator and its schema come from its node and the schemas of its inputs. -/
  operation : ∃ op ins schema, p.node? t.node = some op ∧
    (p.inputs t.node).length = op.inputCount ∧
    List.Forall₂ (fun schema i => schemas[i]? = some schema) ins t.inputs ∧
    schemas[k]? = some schema ∧ operator c op ins = .ok (t.operator, schema)

/-- The tasks built so far, with the schemas of their rows and the channels that nobody reads
yet. -/
structure Layout (p : Plan) (c : Catalog) (tasks : List Task) (schemas : List Schema)
    (loose : List Nat) : Prop where
  schemas_length : schemas.length = tasks.length
  laid : ∀ k t, tasks[k]? = some t → Laid p c tasks schemas k t
  distinct : (tasks.map Task.node).Nodup
  /-- Every channel is read at one place or loose. -/
  used : (tasks.flatMap Task.inputs ++ loose).Perm (List.range tasks.length)

/-- The registry knows the channel of every task, as taken if it is not loose. -/
def Registered (tasks : List Task) (loose : List Nat) (w : Wiring Nat) : Prop :=
  ∀ k t, tasks[k]? = some t → w.output? t.node = some ⟨k, decide (k ∉ loose)⟩

theorem layout_empty (p : Plan) (c : Catalog) : Layout p c [] [] [] where
  schemas_length := rfl
  laid := by simp
  distinct := by simp
  used := by simp

variable {p : Plan} {c : Catalog} {tasks : List Task} {schemas : List Schema} {loose : List Nat}

namespace Laid

variable {k : Nat} {t : Task}

/-- Tasks and schemas added behind the others change nothing. -/
theorem append (h : Laid p c tasks schemas k t) (hk : k < tasks.length)
    (hlen : schemas.length = tasks.length) (more : List Task) (moreSchemas : List Schema) :
    Laid p c (tasks ++ more) (schemas ++ moreSchemas) k t where
  output := h.output
  earlier := h.earlier
  inputs := by
    refine h.inputs.imp fun n i ⟨u, hu, hn⟩ => ⟨u, ?_, hn⟩
    rw [List.getElem?_append_left (List.getElem?_eq_some_iff.mp hu).1]
    exact hu
  operation := by
    obtain ⟨op, ins, schema, hnode, hcount, hins, hschema, hop⟩ := h.operation
    refine ⟨op, ins, schema, hnode, hcount, ?_, ?_, hop⟩
    · refine hins.imp ?_
      intro s i hs
      rw [List.getElem?_append_left (List.getElem?_eq_some_iff.mp hs).1]
      exact hs
    · rw [List.getElem?_append_left (by omega)]
      exact hschema

end Laid

theorem Laid.arity {k : Nat} {t : Task} (h : Laid p c tasks schemas k t) :
    t.inputs.length = t.operator.inputCount := by
  obtain ⟨op, ins, schema, -, hcount, -, -, hop⟩ := h.operation
  rw [operator_inputCount hop, ← hcount]
  exact h.inputs.length_eq.symm

/-- Tasks of the same node are the same task. -/
theorem Layout.index_unique (h : Layout p c tasks schemas loose) {i j : Nat} {t u : Task}
    (ht : tasks[i]? = some t) (hu : tasks[j]? = some u) (hnode : t.node = u.node) : i = j := by
  have hi : i < (tasks.map Task.node).length := by
    rw [List.length_map]
    exact (List.getElem?_eq_some_iff.mp ht).1
  refine (List.getElem?_inj hi h.distinct).mp ?_
  rw [List.getElem?_map, List.getElem?_map, ht, hu]
  exact congrArg some hnode

theorem Layout.loose_nodup (h : Layout p c tasks schemas loose) : loose.Nodup := by
  have hall : (tasks.flatMap Task.inputs ++ loose).Nodup :=
    h.used.nodup_iff.mpr List.nodup_range
  exact (List.nodup_append.mp hall).2.1

/-- The channels of different tasks belong to different nodes. -/
theorem Layout.nodup_nodes (hl : Layout p c tasks schemas loose) {ns : List NodeId} {ks : List Nat}
    (h : List.Forall₂ (fun n i => ∃ u, tasks[i]? = some u ∧ u.node = n) ns ks)
    (hnodup : ks.Nodup) : ns.Nodup := by
  induction h with
  | nil => exact List.nodup_nil
  | @cons n k ns ks hk hrest ih =>
      obtain ⟨hnew, hnodup'⟩ := List.nodup_cons.mp hnodup
      refine List.nodup_cons.mpr ⟨?_, ih hnodup'⟩
      intro hmem
      obtain ⟨i, hi, hin⟩ := List.getElem_of_mem hmem
      have hi' : i < ks.length := hrest.length_eq ▸ hi
      obtain ⟨u, hu, hun⟩ := hrest.get hi hi'
      obtain ⟨t, ht, htn⟩ := hk
      have hsame : k = ks[i] := by
        refine hl.index_unique ht hu ?_
        rw [htn, hun]
        exact hin.symm
      exact hnew (hsame ▸ List.getElem_mem hi')

/-! ### Connecting a node whose inputs are loose -/

section Connect

variable {s : State} {node : NodeId} {op : PlanNode} {o : Operator} {ins : List Schema}
  {schema : Schema} {ks : List Nat}

/-- The channels of the nodes that feed a node are found in the registry. -/
theorem registered_inputs (hl : Layout p c s.tasks schemas (loose ++ ks))
    (hr : Registered s.tasks (loose ++ ks) s.wiring)
    (hks : List.Forall₂ (fun n i => ∃ u, s.tasks[i]? = some u ∧ u.node = n) (p.inputs node) ks)
    (hfresh : ∀ t ∈ s.tasks, t.node ≠ node) :
    ∃ w, (s.wiring.register node s.tasks.length).2.takeInputs p node 0 (p.inputs node).length
        = .ok (ks, w) ∧
      Registered (s.tasks ++ [⟨node, o, ks, s.tasks.length⟩]) (loose ++ [s.tasks.length]) w := by
  have hnodup : ks.Nodup := (List.nodup_append.mp hl.loose_nodup).2.1
  have hdisjoint : ∀ k ∈ ks, k ∉ loose := fun k hk hl' =>
    (List.nodup_append.mp hl.loose_nodup).2.2 k hl' k hk rfl
  have hns : (p.inputs node).Nodup :=
    hl.nodup_nodes hks hnodup
  have hmem : List.Forall₂ (fun n i => (∃ u, s.tasks[i]? = some u ∧ u.node = n) ∧ i ∈ ks)
      (p.inputs node) ks :=
    (((List.forall₂_and_left _ _).mpr ⟨fun i hi => hi, hks.flip⟩).flip).imp
      fun n i hi => ⟨hi.2, hi.1⟩
  have hout : List.Forall₂ (fun n i =>
      (s.wiring.register node s.tasks.length).2.output? n = some ⟨i, false⟩)
      (p.inputs node) ks := by
    refine hmem.imp ?_
    rintro n i ⟨⟨u, hu, hun⟩, hi⟩
    have hne : n ≠ node := hun ▸ hfresh u (List.mem_of_getElem? hu)
    rw [Wiring.output?_register, if_neg hne, ← hun, hr i u hu]
    simp [hi]
  obtain ⟨w, htake, hw⟩ := Wiring.takeInputs_of_loose (List.drop_zero) hns hout
  refine ⟨w, htake, ?_⟩
  intro k t ht
  rw [hw, Wiring.output?_register]
  rcases Nat.lt_or_ge k s.tasks.length with hk | hk
  · rw [List.getElem?_append_left hk] at ht
    have hne : t.node ≠ node := hfresh t (List.mem_of_getElem? ht)
    rw [if_neg hne, hr k t ht]
    by_cases hin : t.node ∈ p.inputs node
    · obtain ⟨i, hi, hival⟩ := List.getElem_of_mem hin
      have hi' : i < ks.length := hmem.length_eq ▸ hi
      obtain ⟨⟨u, hu, hun⟩, hik⟩ := hmem.get hi hi'
      have hsame : k = ks[i] :=
        hl.index_unique ht hu (by rw [hun]; exact hival.symm)
      have hnotloose : k ∉ loose := hdisjoint k (hsame ▸ hik)
      simp [hin, hnotloose, Nat.ne_of_lt hk]
    · have hnotks : k ∉ ks := by
        intro hk'
        obtain ⟨i, hi, hival⟩ := List.getElem_of_mem hk'
        obtain ⟨⟨u, hu, hun⟩, -⟩ := hmem.get (hmem.length_eq.symm ▸ hi) hi
        have hu' : s.tasks[k]? = some u := hival ▸ hu
        rw [ht] at hu'
        cases hu'
        exact hin (hun ▸ List.getElem_mem _)
      simp [hin, hnotks, Nat.ne_of_lt hk]
  · obtain rfl : k = s.tasks.length := by
      have := (List.getElem?_eq_some_iff.mp ht).1
      simp at this
      omega
    rw [List.getElem?_concat_length] at ht
    cases ht
    have hself : node ∉ p.inputs node := by
      intro hin
      obtain ⟨i, hi, hival⟩ := List.getElem_of_mem hin
      obtain ⟨⟨u, hu, hun⟩, -⟩ := hmem.get hi (hmem.length_eq ▸ hi)
      exact hfresh u (List.mem_of_getElem? hu) (hun.trans hival)
    simp [hself]

theorem layout_concat (hl : Layout p c s.tasks schemas (loose ++ ks))
    (hnode : p.node? node = some op) (hcount : (p.inputs node).length = op.inputCount)
    (hks : List.Forall₂ (fun n i => ∃ u, s.tasks[i]? = some u ∧ u.node = n) (p.inputs node) ks)
    (hins : List.Forall₂ (fun schema i => schemas[i]? = some schema) ins ks)
    (hop : operator c op ins = .ok (o, schema)) (hfresh : ∀ t ∈ s.tasks, t.node ≠ node) :
    Layout p c (s.tasks ++ [⟨node, o, ks, s.tasks.length⟩]) (schemas ++ [schema])
      (loose ++ [s.tasks.length]) where
  schemas_length := by simp [hl.schemas_length]
  laid := by
    intro k t ht
    rcases Nat.lt_or_ge k s.tasks.length with hk | hk
    · rw [List.getElem?_append_left hk] at ht
      exact (hl.laid k t ht).append hk hl.schemas_length _ _
    · obtain rfl : k = s.tasks.length := by
        have := (List.getElem?_eq_some_iff.mp ht).1
        simp at this
        omega
      rw [List.getElem?_concat_length] at ht
      cases ht
      refine ⟨rfl, ?_, ?_, op, ins, schema, hnode, hcount, ?_, ?_, hop⟩
      · intro i hi
        have hmem : i ∈ s.tasks.flatMap Task.inputs ++ (loose ++ ks) := by simp [hi]
        simpa using hl.used.mem_iff.mp hmem
      · refine hks.imp fun n i ⟨u, hu, hn⟩ => ⟨u, ?_, hn⟩
        rw [List.getElem?_append_left (List.getElem?_eq_some_iff.mp hu).1]
        exact hu
      · refine hins.imp ?_
        intro sc i hs
        rw [List.getElem?_append_left (List.getElem?_eq_some_iff.mp hs).1]
        exact hs
      · rw [← hl.schemas_length]
        exact List.getElem?_concat_length
  distinct := by
    rw [List.map_append, List.nodup_append]
    refine ⟨hl.distinct, by simp, ?_⟩
    intro a ha b hb
    obtain ⟨t, ht, rfl⟩ := List.mem_map.mp ha
    obtain rfl : b = node := by simpa using hb
    exact hfresh t ht
  used := by
    rw [List.length_append, List.length_singleton, List.range_succ]
    refine List.Perm.trans ?_ (hl.used.append_right _)
    simp only [List.flatMap_append, List.flatMap_cons, List.flatMap_nil, List.append_nil,
      List.append_assoc]
    refine List.Perm.append_left _ ?_
    rw [← List.append_assoc, ← List.append_assoc]
    exact List.Perm.append_right _ List.perm_append_comm

/-- A new node whose inputs are the loose channels `ks` becomes a task, and its own channel takes
their place. -/
theorem connect_layout (hl : Layout p c s.tasks schemas (loose ++ ks))
    (hr : Registered s.tasks (loose ++ ks) s.wiring)
    (hnode : p.node? node = some op) (hcount : (p.inputs node).length = op.inputCount)
    (hks : List.Forall₂ (fun n i => ∃ u, s.tasks[i]? = some u ∧ u.node = n) (p.inputs node) ks)
    (hins : List.Forall₂ (fun schema i => schemas[i]? = some schema) ins ks)
    (hop : operator c op ins = .ok (o, schema)) (hfresh : ∀ t ∈ s.tasks, t.node ≠ node) :
    ∃ w, connect p node o s = .ok ⟨s.tasks ++ [⟨node, o, ks, s.tasks.length⟩], w⟩ ∧
      Layout p c (s.tasks ++ [⟨node, o, ks, s.tasks.length⟩]) (schemas ++ [schema])
        (loose ++ [s.tasks.length]) ∧
      Registered (s.tasks ++ [⟨node, o, ks, s.tasks.length⟩]) (loose ++ [s.tasks.length]) w := by
  obtain ⟨w, htake, hw⟩ := registered_inputs (o := o) hl hr hks hfresh
  refine ⟨w, ?_, layout_concat hl hnode hcount hks hins hop hfresh, hw⟩
  simp only [connect, operator_inputCount hop, ← hcount, htake]

end Connect

/-! ### Building along the walk -/

/-- What building the trees of some nodes has achieved: the tasks grew by tasks of nodes that were
not visited before, and the channels of the nodes are loose. -/
def Grown (p : Plan) (c : Catalog) (schemas : List Schema) (loose : List Nat)
    (visited visited' : List NodeId) (s s' : State) (ns : List NodeId) (ins : List Schema) :
    Prop :=
  ∃ more moreSchemas ks, s'.tasks = s.tasks ++ more ∧
    Layout p c s'.tasks (schemas ++ moreSchemas) (loose ++ ks) ∧
    Registered s'.tasks (loose ++ ks) s'.wiring ∧
    List.Forall₂ (fun n i => ∃ u, s'.tasks[i]? = some u ∧ u.node = n) ns ks ∧
    List.Forall₂ (fun schema i => (schemas ++ moreSchemas)[i]? = some schema) ins ks ∧
    ∀ t ∈ more, t.node ∉ visited ∧ t.node ∈ visited'

/-- What holds of building one tree holds of building several. -/
theorem addAll_grown {fuel : Nat}
    (hadd : ∀ {n visited s schemas loose schema s'}, Layout p c s.tasks schemas loose →
      Registered s.tasks loose s.wiring → (∀ t ∈ s.tasks, t.node ∈ visited) →
      add c p (p.walk fuel n visited).1 s = .ok (schema, s') →
      Grown p c schemas loose visited (p.walk fuel n visited).2 s s' [n] [schema])
    (ns : List NodeId) :
    ∀ {visited : List NodeId} {s s' : State} {schemas : List Schema} {loose : List Nat}
      {ins : List Schema}, Layout p c s.tasks schemas loose →
      Registered s.tasks loose s.wiring → (∀ t ∈ s.tasks, t.node ∈ visited) →
      addAll c p (p.walkAll fuel ns visited).1 s = .ok (ins, s') →
      Grown p c schemas loose visited (p.walkAll fuel ns visited).2 s s' ns ins := by
  induction ns with
  | nil =>
      intro visited s s' schemas loose ins hl hr _ h
      simp only [Plan.walkAll, addAll, Except.ok.injEq, Prod.mk.injEq] at h
      obtain ⟨rfl, rfl⟩ := h
      exact ⟨[], [], [], by simp, by simpa using hl, by simpa using hr, .nil, .nil, by simp⟩
  | cons n ns ih =>
      intro visited s s' schemas loose ins hl hr hvisited h
      simp only [Plan.walkAll, addAll, bind, Except.bind] at h
      split at h
      · simp at h
      · rename_i first hfirst
        obtain ⟨schema, s₁⟩ := first
        split at h
        · simp at h
        · rename_i others hothers
          obtain ⟨rest, s₂⟩ := others
          cases h
          obtain ⟨more, moreS, ks, htasks, hl₁, hr₁, hnodes, hins, hmore⟩ :=
            hadd hl hr hvisited hfirst
          have hvisited₁ : ∀ t ∈ s₁.tasks, t.node ∈ (p.walk fuel n visited).2 := by
            intro t ht
            rw [htasks] at ht
            rcases List.mem_append.mp ht with ht | ht
            · exact p.walk_mono fuel n visited (hvisited t ht)
            · exact (hmore t ht).2
          obtain ⟨more₂, moreS₂, ks₂, htasks₂, hl₂, hr₂, hnodes₂, hins₂, hmore₂⟩ :=
            ih hl₁ hr₁ hvisited₁ hothers
          have hmono := Plan.walkAll_mono (p.walk_mono fuel) ns (p.walk fuel n visited).2
          refine ⟨more ++ more₂, moreS ++ moreS₂, ks ++ ks₂, ?_, ?_, ?_, ?_, ?_, ?_⟩
          · rw [htasks₂, htasks, List.append_assoc]
          · simpa [List.append_assoc] using hl₂
          · simpa [List.append_assoc] using hr₂
          · refine List.rel_append (hnodes.imp ?_) hnodes₂
            rintro m i ⟨u, hu, hm⟩
            refine ⟨u, ?_, hm⟩
            rw [htasks₂, List.getElem?_append_left (List.getElem?_eq_some_iff.mp hu).1]
            exact hu
          · rw [← List.append_assoc schemas]
            refine List.rel_append (hins.imp ?_) hins₂
            intro sc i hs
            rw [List.getElem?_append_left (List.getElem?_eq_some_iff.mp hs).1]
            exact hs
          · intro t ht
            rcases List.mem_append.mp ht with ht | ht
            · exact ⟨(hmore t ht).1, hmono (hmore t ht).2⟩
            · refine ⟨fun hv => (hmore₂ t ht).1 ?_, (hmore₂ t ht).2⟩
              exact p.walk_mono fuel n visited hv

/-- Building the tree of a walk lays out the tasks of the nodes that the walk was the first to
visit. -/
theorem add_grown (p : Plan) (c : Catalog) :
    ∀ fuel {n visited s schemas loose schema s'}, Layout p c s.tasks schemas loose →
      Registered s.tasks loose s.wiring → (∀ t ∈ s.tasks, t.node ∈ visited) →
      add c p (p.walk fuel n visited).1 s = .ok (schema, s') →
      Grown p c schemas loose visited (p.walk fuel n visited).2 s s' [n] [schema] := by
  intro fuel
  induction fuel with
  | zero =>
      intro n visited s schemas loose schema s' _ _ _ h
      simp [Plan.walk, add] at h
  | succ fuel ih =>
      intro n visited s schemas loose schema s' hl hr hvisited h
      rw [Plan.walk_succ] at h ⊢
      by_cases hn : n ∈ visited
      · simp [hn, add] at h
      rw [if_neg hn] at h ⊢
      cases hnode : p.node? n with
      | none => simp [hnode, add] at h
      | some op =>
          simp only [hnode] at h ⊢
          by_cases hcount : (p.inputs n).length = op.inputCount
          · rw [if_pos hcount] at h ⊢
            simp only [add, bind, Except.bind] at h
            split at h
            · simp at h
            rename_i below hbelow
            obtain ⟨ins, s₁⟩ := below
            split at h
            · simp at h
            rename_i built hop
            obtain ⟨o, schema₁⟩ := built
            have hvisited' : ∀ t ∈ s.tasks, t.node ∈ n :: visited :=
              fun t ht => List.mem_cons_of_mem _ (hvisited t ht)
            obtain ⟨more, moreS, ks, htasks, hl₁, hr₁, hnodes, hins, hmore⟩ :=
              addAll_grown ih (p.inputs n) hl hr hvisited' hbelow
            have hfresh : ∀ t ∈ s₁.tasks, t.node ≠ n := by
              intro t ht heq
              rw [htasks] at ht
              rcases List.mem_append.mp ht with ht | ht
              · exact hn (heq ▸ hvisited t ht)
              · exact (hmore t ht).1 (heq ▸ List.mem_cons_self)
            obtain ⟨w, hconnect, hl₂, hr₂⟩ :=
              connect_layout hl₁ hr₁ hnode hcount hnodes hins hop hfresh
            simp only [hconnect] at h
            cases h
            refine ⟨more ++ [⟨n, o, ks, s₁.tasks.length⟩], moreS ++ [schema],
              [s₁.tasks.length], ?_, ?_, hr₂, ?_, ?_, ?_⟩
            · rw [htasks, List.append_assoc]
            · rw [← List.append_assoc]
              exact hl₂
            · exact .cons ⟨_, List.getElem?_concat_length, rfl⟩ .nil
            · refine .cons ?_ .nil
              rw [← List.append_assoc, ← hl₁.schemas_length]
              exact List.getElem?_concat_length
            · intro t ht
              rcases List.mem_append.mp ht with ht | ht
              · exact ⟨fun hv => (hmore t ht).1 (List.mem_cons_of_mem _ hv), (hmore t ht).2⟩
              · obtain rfl := List.mem_singleton.mp ht
                exact ⟨hn, Plan.walkAll_mono (p.walk_mono fuel) _ _ List.mem_cons_self⟩
          · simp [hcount, add] at h

/-- The tasks of an assembled plan are laid out, and the one channel that no task reads is that of
the root. -/
theorem layout_of_assemble {a : Assembly} (h : p.assemble c = .ok a) :
    ∃ root schemas t, p.root = some root ∧ Layout p c a.tasks schemas [a.output] ∧
      a.tasks[a.output]? = some t ∧ t.node = root ∧ schemas[a.output]? = some a.schema := by
  simp only [Plan.assemble, bind, Except.bind] at h
  split at h
  · simp at h
  rename_i built hadd
  obtain ⟨schema, s⟩ := built
  cases hroot : p.root with
  | none => simp [Plan.tree, hroot, add] at hadd
  | some root =>
      simp only [Plan.tree, hroot] at hadd
      obtain ⟨more, schemas, ks, -, hl, hr, hnodes, hschemas, -⟩ :=
        add_grown p c _ (layout_empty p c) (by intro k t ht; simp at ht)
          (by intro t ht; simp at ht) hadd
      rw [List.nil_append] at hl hr hschemas
      cases hnodes with
      | @cons _ k _ ks hk hnil =>
          cases hnil
          cases hschemas with
          | cons hschema _ =>
              obtain ⟨t, ht, htn⟩ := hk
              have hout : s.wiring.output? root = some ⟨k, false⟩ := by
                have := hr k t ht
                simpa [htn] using this
              simp only [hroot, Wiring.takeOutput, hout] at h
              cases h
              exact ⟨root, schemas, t, rfl, hl, ht, htn, hschema⟩

end Assembly

end StreamQuery
