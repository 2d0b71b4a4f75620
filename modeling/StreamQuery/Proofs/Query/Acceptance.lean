/-
Which plans are accepted, and what becomes of them.

A plan may be any graph.  `Plan.Acceptable` says which plans can be run, in terms of
paths from the root, of schemas and of single operations, and says nothing of the order
in which a plan is walked.  The main statement is that exactly these plans are
assembled, and that connecting the operators never fails.

One direction goes along the walk: where each node is reached by one path only, the
walk meets no node twice, because two inputs of a node have nothing below them in
common and no path leads back.  The other direction reads the tasks: each channel is
read at one place only, so going back from a task to the one that reads it there is one
way only, and it ends at the root.

Building is two things at once, deriving schemas and connecting channels.  `derive` is
the first of them alone; that it answers the same is what shows that the second never
fails.
-/
import StreamQuery.Proofs.Plan.Derivation
import StreamQuery.Proofs.Plan.Path
import StreamQuery.Proofs.Query.Sound

namespace StreamQuery

/-- What a plan has to be below its root to be run on the tables of a catalog. -/
structure Plan.Acceptable (p : Plan) (c : Catalog) (root : NodeId) : Prop where
  /-- Every node is there and has as many inputs as its operation needs. -/
  node : ∀ n, p.Reaches root n →
    ∃ op, p.node? n = some op ∧ (p.inputs n).length = op.inputCount
  onePath : p.OnePath root
  /-- Every operation suits the schemas of its inputs. -/
  suits : ∀ n op ins, p.Reaches root n → p.node? n = some op →
    List.Forall₂ (p.HasSchema c) (p.inputs n) ins → op.Suits c ins

namespace Assembly

variable {p : Plan} {c : Catalog}

/-! ### Deriving schemas without connecting -/

mutual
/-- The schema of the rows of a tree. -/
def derive (c : Catalog) : PlanTree → Except BuildError Schema
  | .fault f => .error (.fault f)
  | .node _ op inputs => do
    let schemas ← deriveAll c inputs
    let (_, schema) ← operator c op schemas
    return schema
/-- The schemas of the rows of trees. -/
def deriveAll (c : Catalog) : List PlanTree → Except BuildError (List Schema)
  | [] => .ok []
  | t :: ts => do
    let schema ← derive c t
    let schemas ← deriveAll c ts
    return schema :: schemas
end

mutual
theorem derive_ne_wiring {d : WiringDefect} : ∀ t : PlanTree, derive c t ≠ .error (.wiring d)
  | .fault f => by simp [derive]
  | .node id op inputs => by
      intro h
      simp only [derive, bind, Except.bind] at h
      split at h
      · rename_i err herr
        cases h
        exact deriveAll_ne_wiring inputs herr
      · split at h
        · rename_i err herr
          cases h
          exact operator_ne_wiring herr
        · cases h
theorem deriveAll_ne_wiring {d : WiringDefect} :
    ∀ ts : List PlanTree, deriveAll c ts ≠ .error (.wiring d)
  | [] => by simp [deriveAll]
  | t :: ts => by
      intro h
      simp only [deriveAll, bind, Except.bind] at h
      split at h
      · rename_i err herr
        cases h
        exact derive_ne_wiring t herr
      · split at h
        · rename_i err herr
          cases h
          exact deriveAll_ne_wiring ts herr
        · cases h
end

theorem addAll_derive {fuel : Nat}
    (hadd : ∀ {n visited s schemas loose}, Layout p c s.tasks schemas loose →
      Registered s.tasks loose s.wiring → (∀ t ∈ s.tasks, t.node ∈ visited) →
      (add c p (p.walk fuel n visited).1 s).map Prod.fst = derive c (p.walk fuel n visited).1)
    (ns : List NodeId) :
    ∀ {visited : List NodeId} {s : State} {schemas : List Schema} {loose : List Nat},
      Layout p c s.tasks schemas loose → Registered s.tasks loose s.wiring →
      (∀ t ∈ s.tasks, t.node ∈ visited) →
      (addAll c p (p.walkAll fuel ns visited).1 s).map Prod.fst
        = deriveAll c (p.walkAll fuel ns visited).1 := by
  induction ns with
  | nil => intro visited s schemas loose _ _ _; rfl
  | cons n ns ih =>
      intro visited s schemas loose hl hr hvisited
      have hfirst := hadd (n := n) hl hr hvisited
      simp only [Plan.walkAll, addAll, deriveAll, bind, Except.bind]
      rw [← hfirst]
      cases hstep : add c p (p.walk fuel n visited).1 s with
      | error err => rfl
      | ok result =>
          obtain ⟨schema, s₁⟩ := result
          obtain ⟨more, moreS, ks, htasks, hl₁, hr₁, -, -, hmore⟩ :=
            add_grown p c fuel hl hr hvisited hstep
          have hvisited₁ : ∀ t ∈ s₁.tasks, t.node ∈ (p.walk fuel n visited).2 := by
            intro t ht
            rw [htasks] at ht
            rcases List.mem_append.mp ht with ht | ht
            · exact p.walk_mono fuel n visited (hvisited t ht)
            · exact (hmore t ht).2
          have hrest := ih hl₁ hr₁ hvisited₁
          simp only [Except.map]
          rw [← hrest]
          cases addAll c p (p.walkAll fuel ns (p.walk fuel n visited).2).1 s₁ <;> rfl

/-- **Adding the tasks of a walk derives its schema and fails for no other reason.** -/
theorem add_derive (p : Plan) (c : Catalog) : ∀ fuel {n visited s schemas loose},
    Layout p c s.tasks schemas loose → Registered s.tasks loose s.wiring →
    (∀ t ∈ s.tasks, t.node ∈ visited) →
    (add c p (p.walk fuel n visited).1 s).map Prod.fst = derive c (p.walk fuel n visited).1 := by
  intro fuel
  induction fuel with
  | zero => intro n visited s schemas loose _ _ _; rfl
  | succ fuel ih =>
      intro n visited s schemas loose hl hr hvisited
      rw [Plan.walk_succ]
      by_cases hn : n ∈ visited
      · rw [if_pos hn]
        rfl
      rw [if_neg hn]
      cases hnode : p.node? n with
      | none => rfl
      | some op =>
          simp only
          by_cases hcount : (p.inputs n).length = op.inputCount
          · rw [if_pos hcount]
            have hvisited' : ∀ t ∈ s.tasks, t.node ∈ n :: visited :=
              fun t ht => List.mem_cons_of_mem _ (hvisited t ht)
            have hinputs := addAll_derive ih (p.inputs n) hl hr hvisited'
            simp only [add, derive, bind, Except.bind]
            rw [← hinputs]
            cases hbelow : addAll c p (p.walkAll fuel (p.inputs n) (n :: visited)).1 s with
            | error err => rfl
            | ok result =>
                obtain ⟨ins, s₁⟩ := result
                simp only [Except.map]
                cases hop : operator c op ins with
                | error err => rfl
                | ok built =>
                    obtain ⟨o, schema⟩ := built
                    obtain ⟨more, moreS, ks, htasks, hl₁, hr₁, hnodes, hins, hmore⟩ :=
                      addAll_grown (add_grown p c fuel) (p.inputs n) hl hr hvisited' hbelow
                    have hfresh : ∀ t ∈ s₁.tasks, t.node ≠ n := by
                      intro t ht heq
                      rw [htasks] at ht
                      rcases List.mem_append.mp ht with ht | ht
                      · exact hn (heq ▸ hvisited t ht)
                      · exact (hmore t ht).1 (heq ▸ List.mem_cons_self)
                    obtain ⟨w, hconnect, -⟩ :=
                      connect_layout hl₁ hr₁ hnode hcount hnodes hins hop hfresh
                    simp only [hconnect]
                    rfl
          · rw [if_neg hcount]
            rfl

/-- **A plan is assembled exactly if its schema can be derived**, and what cannot be derived is
all that can be wrong with it. -/
theorem assemble_derive {root : NodeId} (hroot : p.root = some root) :
    (p.assemble c).map Assembly.schema = derive c p.tree := by
  have htree := Plan.tree_of_root hroot
  have hl := layout_empty p c
  have hr : Registered [] [] (Wiring.empty (κ := Nat)) := by intro k t ht; simp at ht
  have hnone : ∀ t ∈ (⟨[], .empty⟩ : State).tasks, t.node ∈ ([] : List NodeId) := by
    intro t ht
    simp at ht
  have hderive := add_derive p c (p.graph.size + 1) (n := root) (s := ⟨[], .empty⟩) hl hr hnone
  rw [htree, ← hderive]
  simp only [Plan.assemble, bind, Except.bind, htree]
  cases hadd : add c p (p.walk (p.graph.size + 1) root []).1 ⟨[], .empty⟩ with
  | error err => rfl
  | ok built =>
      obtain ⟨schema, s⟩ := built
      obtain ⟨more, schemas, ks, -, -, hreg, hnodes, -, -⟩ :=
        add_grown p c _ hl hr hnone hadd
      cases hnodes with
      | @cons _ k _ ks hk hnil =>
          cases hnil
          obtain ⟨t, ht, htn⟩ := hk
          have hout : s.wiring.output? root = some ⟨k, false⟩ := by
            have hmine := hreg k t ht
            simpa [htn] using hmine
          simp only [hroot, Wiring.takeOutput, hout]
          rfl

/-! ### From an acceptable plan to its schema -/

section Accept

variable {root : NodeId}

theorem deriveAll_walk {fuel : Nat}
    (h : ∀ n visited, p.unvisited visited < fuel → p.Reaches root n →
      (∀ m, p.Reaches n m → m ∉ visited) →
      ∃ schema, derive c (p.walk fuel n visited).1 = .ok schema ∧ p.HasSchema c n schema)
    (ns : List NodeId) :
    ∀ visited, p.unvisited visited < fuel → (∀ n ∈ ns, p.Reaches root n) →
      (∀ n ∈ ns, ∀ m, p.Reaches n m → m ∉ visited) →
      (ns.Pairwise fun a b => ∀ m, p.Reaches a m → ¬ p.Reaches b m) →
      ∃ ins, deriveAll c (p.walkAll fuel ns visited).1 = .ok ins ∧
        List.Forall₂ (p.HasSchema c) ns ins := by
  induction ns with
  | nil => intro visited _ _ _ _; exact ⟨[], rfl, .nil⟩
  | cons n ns ih =>
      intro visited hroom hbelow hnew hapart
      obtain ⟨hfirst, hrest⟩ := List.pairwise_cons.mp hapart
      obtain ⟨schema, hderive, hschema⟩ := h n visited hroom (hbelow n List.mem_cons_self)
        (hnew n List.mem_cons_self)
      have hroom' : p.unvisited (p.walk fuel n visited).2 < fuel :=
        Nat.lt_of_le_of_lt (Plan.unvisited_le (p.walk_mono fuel n visited)) hroom
      have hnew' : ∀ b ∈ ns, ∀ m, p.Reaches b m → m ∉ (p.walk fuel n visited).2 := by
        intro b hb m hm hmem
        rcases p.reaches_of_mem_walk fuel n visited m hmem with hbefore | hreach
        · exact hnew b (List.mem_cons_of_mem _ hb) m hm hbefore
        · exact hfirst b hb m hreach hm
      obtain ⟨ins, hall, hschemas⟩ := ih (p.walk fuel n visited).2 hroom'
        (fun b hb => hbelow b (List.mem_cons_of_mem _ hb)) hnew' hrest
      refine ⟨schema :: ins, ?_, .cons hschema hschemas⟩
      simp only [Plan.walkAll, deriveAll, hderive, hall, bind, Except.bind]
      rfl

/-- Below the root of an acceptable plan every walk that meets only new nodes derives the schema
of the node where it begins. -/
theorem derive_walk (h : p.Acceptable c root) : ∀ fuel n visited, p.unvisited visited < fuel →
    p.Reaches root n → (∀ m, p.Reaches n m → m ∉ visited) →
    ∃ schema, derive c (p.walk fuel n visited).1 = .ok schema ∧ p.HasSchema c n schema := by
  intro fuel
  induction fuel with
  | zero => intro n visited hroom _ _; omega
  | succ fuel ih =>
      intro n visited hroom hbelow hnew
      have hn : n ∉ visited := hnew n (.refl p n)
      obtain ⟨op, hnode, hcount⟩ := h.node n hbelow
      have hfewer := Plan.unvisited_lt hnode hn
      have hinput : ∀ m ∈ p.inputs n, ∀ k, p.Reaches m k → k ∉ n :: visited := by
        intro m hm k hk hmem
        rcases List.mem_cons.mp hmem with rfl | hbefore
        · exact h.onePath.not_back hbelow hm hk
        · exact hnew k ((Plan.reaches_of_input hm).trans hk) hbefore
      obtain ⟨ins, hins, hschemas⟩ := deriveAll_walk ih (p.inputs n) (n :: visited) (by omega)
        (fun m hm => hbelow.trans (Plan.reaches_of_input hm)) hinput (h.onePath.apart hbelow)
      have hsuits := h.suits n op ins hbelow hnode hschemas
      obtain ⟨o, schema, hop⟩ :=
        (operator_ok_iff (hschemas.length_eq ▸ hcount)).mpr hsuits
      refine ⟨schema, ?_, hasSchema_of_operator hnode hcount hschemas hop⟩
      rw [Plan.walk_succ, if_neg hn]
      simp only [hnode, if_pos hcount, derive, hins, hop, bind, Except.bind]
      rfl

end Accept

/-! ### From the tasks back to the plan -/

section Tasks

variable {tasks : List Task} {schemas : List Schema} {output : Nat} {root : NodeId} {n : NodeId}
  {k : Nat} {t u : Task}

/-- The task of the node that feeds a task as its input at a position. -/
theorem Laid.input (h : Laid p c tasks schemas k t) {i : Nat}
    (hi : (p.inputs t.node)[i]? = some n) :
    ∃ j u, t.inputs[i]? = some j ∧ tasks[j]? = some u ∧ u.node = n := by
  obtain ⟨hlt, rfl⟩ := List.getElem?_eq_some_iff.mp hi
  have hlt' : i < t.inputs.length := h.inputs.length_eq ▸ hlt
  obtain ⟨u, hu, hun⟩ := h.inputs.get hlt hlt'
  exact ⟨_, u, List.getElem?_eq_getElem hlt', hu, hun⟩

/-- The schema that was derived for a task is that of its node. -/
theorem Layout.hasSchema {loose : List Nat} (hl : Layout p c tasks schemas loose) :
    ∀ (k : Nat) (t : Task) (s : Schema), tasks[k]? = some t → schemas[k]? = some s →
      p.HasSchema c t.node s := by
  intro k
  induction k using Nat.strong_induction_on with
  | _ k ih =>
      intro t s ht hs
      have hlaid := hl.laid k t ht
      obtain ⟨op, ins, schema, hnode, hcount, hins, hschema, hop⟩ := hlaid.operation
      rw [hs] at hschema
      cases hschema
      refine hasSchema_of_operator hnode hcount (List.forall₂_iff_get.mpr ?_) hop
      have hlen : (p.inputs t.node).length = ins.length :=
        hlaid.inputs.length_eq.trans hins.length_eq.symm
      refine ⟨hlen, ?_⟩
      intro i hi hi'
      have hi'' : i < t.inputs.length := hlaid.inputs.length_eq ▸ hi
      obtain ⟨u, hu, hun⟩ := hlaid.inputs.get hi hi''
      have hsu := hins.get hi' hi''
      have hsmall : t.inputs.get ⟨i, hi''⟩ < k := hlaid.earlier _ (List.get_mem _ _)
      rw [← hun]
      exact ih _ hsmall u _ hu hsu

/-- The operator of a task is built for the schemas of the nodes that feed its node. -/
theorem Layout.hasSchemas {loose : List Nat} (hl : Layout p c tasks schemas loose)
    (ht : tasks[k]? = some t) {ins : List Schema}
    (hins : List.Forall₂ (fun schema i => schemas[i]? = some schema) ins t.inputs) :
    List.Forall₂ (p.HasSchema c) (p.inputs t.node) ins := by
  have hlaid := hl.laid k t ht
  refine List.forall₂_iff_get.mpr ⟨hlaid.inputs.length_eq.trans hins.length_eq.symm, ?_⟩
  intro i hi hi'
  have hi'' : i < t.inputs.length := hlaid.inputs.length_eq ▸ hi
  obtain ⟨u, hu, hun⟩ := hlaid.inputs.get hi hi''
  rw [← hun]
  exact hl.hasSchema _ u _ hu (hins.get hi' hi'')

/-- The schemas of the inputs of a node that has a task are those that its operator was built
for. -/
theorem Layout.suits {loose : List Nat} (hl : Layout p c tasks schemas loose)
    (ht : tasks[k]? = some t) {op : PlanNode} {ins : List Schema}
    (hnode : p.node? t.node = some op)
    (hins : List.Forall₂ (p.HasSchema c) (p.inputs t.node) ins) : op.Suits c ins := by
  have hlaid := hl.laid k t ht
  obtain ⟨op', ins', schema, hnode', hcount, hins', -, hop⟩ := hlaid.operation
  rw [hnode] at hnode'
  cases hnode'
  have hsame : ins = ins' := by
    have hlen : ins.length = ins'.length := by
      rw [← hins.length_eq, hlaid.inputs.length_eq, hins'.length_eq]
    refine List.ext_getElem hlen ?_
    intro i hi hi'
    have hn : i < (p.inputs t.node).length := hins.length_eq ▸ hi
    have hk : i < t.inputs.length := hlaid.inputs.length_eq ▸ hn
    obtain ⟨u, hu, hun⟩ := hlaid.inputs.get hn hk
    have hhas := hl.hasSchema _ u _ hu (hins'.get hi' hk)
    rw [hun] at hhas
    exact (hins.get hn hi).unique hhas
  subst hsame
  exact (operator_ok_iff (hins.length_eq ▸ hcount)).mp ⟨_, _, hop⟩

variable (hl : Layout p c tasks schemas [output])
include hl

/-- Going from a task to what feeds its node, one comes to tasks only. -/
theorem Layout.task_of_follow (hout : tasks[output]? = some u) :
    ∀ (path : List Nat) (n : NodeId), p.follow u.node path = some n →
      ∃ (k : Nat) (t : Task), tasks[k]? = some t ∧ t.node = n := by
  intro path
  induction path using List.reverseRecOn with
  | nil => intro n hn; cases hn; exact ⟨output, u, hout, rfl⟩
  | append_singleton path i ih =>
      intro n hn
      obtain ⟨m, hm, hstep⟩ := Plan.follow_concat hn
      obtain ⟨k, t, ht, rfl⟩ := ih m hm
      obtain ⟨j, v, -, hv, hvn⟩ := (hl.laid k t ht).input hstep
      exact ⟨j, v, hv, hvn⟩

/-- A channel is read at one place only. -/
theorem Layout.read_once {j pos pos' i : Nat} (ht : tasks[k]? = some t)
    (hi : t.inputs[pos]? = some i) (hu : tasks[j]? = some u) (hi' : u.inputs[pos']? = some i) :
    k = j ∧ pos = pos' := by
  have hall : (tasks.flatMap Task.inputs ++ [output]).Nodup :=
    hl.used.nodup_iff.mpr List.nodup_range
  exact Network.flatMap_place_unique (List.nodup_append.mp hall).1 ht hi hu hi'

/-- No task reads the channel of the answer. -/
theorem Layout.answer_unread (ht : tasks[k]? = some t) : output ∉ t.inputs := by
  intro hmem
  have hall : (tasks.flatMap Task.inputs ++ [output]).Nodup :=
    hl.used.nodup_iff.mpr List.nodup_range
  have hread : output ∈ tasks.flatMap Task.inputs :=
    List.mem_flatMap.mpr ⟨t, List.mem_of_getElem? ht, hmem⟩
  exact (List.nodup_append.mp hall).2.2 _ hread _ List.mem_cons_self rfl

/-- The inputs of a task do not lead back to the node of the answer. -/
theorem Layout.not_answer {i : Nat} (hout : tasks[output]? = some u) (ht : tasks[k]? = some t)
    (hi : (p.inputs t.node)[i]? = some n) : n ≠ u.node := by
  rintro rfl
  obtain ⟨j, v, hj, hv, hvn⟩ := (hl.laid k t ht).input hi
  have hsame := hl.index_unique hv hout hvn
  exact hl.answer_unread ht (hsame ▸ List.mem_of_getElem? hj)

/-- **The nodes of tasks are reached by one path only.** The induction is on the path from its
end: the last step is the place at which the channel of the node is read. -/
theorem Layout.onePath (hout : tasks[output]? = some u) : p.OnePath u.node := by
  intro path
  induction path using List.reverseRecOn with
  | nil =>
      intro path' n hn hn'
      cases hn
      induction path' using List.reverseRecOn with
      | nil => rfl
      | append_singleton path' i _ =>
          obtain ⟨m, hm, hstep⟩ := Plan.follow_concat hn'
          obtain ⟨k, t, ht, rfl⟩ := hl.task_of_follow hout path' m hm
          exact absurd rfl (hl.not_answer hout ht hstep)
  | append_singleton path i ih =>
      intro path' n hn hn'
      obtain ⟨m, hm, hstep⟩ := Plan.follow_concat hn
      obtain ⟨k, t, ht, rfl⟩ := hl.task_of_follow hout path m hm
      induction path' using List.reverseRecOn with
      | nil =>
          cases hn'
          exact absurd rfl (hl.not_answer hout ht hstep)
      | append_singleton path' i' _ =>
          obtain ⟨m', hm', hstep'⟩ := Plan.follow_concat hn'
          obtain ⟨k', t', ht', rfl⟩ := hl.task_of_follow hout path' m' hm'
          obtain ⟨j, v, hj, hv, hvn⟩ := (hl.laid k t ht).input hstep
          obtain ⟨j', v', hj', hv', hvn'⟩ := (hl.laid k' t' ht').input hstep'
          obtain rfl := hl.index_unique hv hv' (hvn.trans hvn'.symm)
          obtain ⟨rfl, rfl⟩ := hl.read_once ht hj ht' hj'
          rw [ht] at ht'
          cases ht'
          rw [ih path' _ hm hm']

/-- The node of every task is reached from that of the answer: every other task is read by one
with a larger number. -/
theorem Layout.reaches (hout : tasks[output]? = some u) :
    ∀ (m k : Nat) (t : Task), tasks.length - k = m → tasks[k]? = some t →
      p.Reaches u.node t.node := by
  intro m
  induction m using Nat.strong_induction_on with
  | _ m ih =>
      intro k t hm ht
      have hk : k < tasks.length := (List.getElem?_eq_some_iff.mp ht).1
      by_cases hroot : k = output
      · subst hroot
        rw [hout] at ht
        cases ht
        exact .refl p _
      · have hmem : k ∈ tasks.flatMap Task.inputs ++ [output] :=
          hl.used.mem_iff.mpr (List.mem_range.mpr hk)
        rcases List.mem_append.mp hmem with hread | hlast
        · obtain ⟨v, hv, hin⟩ := List.mem_flatMap.mp hread
          obtain ⟨l, hl'⟩ := List.mem_iff_getElem?.mp hv
          have hlaid := hl.laid l v hl'
          have hlt : k < l := hlaid.earlier k hin
          obtain ⟨pos, hpos⟩ := List.mem_iff_getElem?.mp hin
          obtain ⟨hp, hval⟩ := List.getElem?_eq_some_iff.mp hpos
          have hp' : pos < (p.inputs v.node).length := hlaid.inputs.length_eq ▸ hp
          obtain ⟨w, hw, hwn⟩ := hlaid.inputs.get hp' hp
          have hw' : tasks[k]? = some w := hval ▸ hw
          rw [ht] at hw'
          cases hw'
          have hinput : t.node ∈ p.inputs v.node := hwn ▸ List.getElem_mem hp'
          exact (ih (tasks.length - l) (by omega) l v rfl hl').trans
            (Plan.reaches_of_input hinput)
        · exact absurd (List.mem_singleton.mp hlast) hroot

end Tasks

/-! ### The plans that are accepted -/

/-- How the tasks of an assembly stand to the nodes of its plan below the root. -/
structure Arranged (p : Plan) (c : Catalog) (root : NodeId) (a : Assembly) : Prop where
  /-- The tasks are those of the nodes below the root, -/
  nodes : ∀ n, n ∈ a.tasks.map Task.node ↔ p.Reaches root n
  /-- each once. -/
  distinct : (a.tasks.map Task.node).Nodup
  /-- A task writes the channel of its own number. -/
  output : ∀ (k : Nat) (t : Task), a.tasks[k]? = some t → t.output = k
  /-- It reads, in order, the channels of the nodes that feed its node, whose tasks come before
  it. -/
  inputs : ∀ (k : Nat) (t : Task), a.tasks[k]? = some t →
    List.Forall₂ (fun n i => i < k ∧ ∃ u, a.tasks[i]? = some u ∧ u.node = n)
      (p.inputs t.node) t.inputs
  /-- It runs the operation of its node, compiled for the schemas of the inputs. -/
  operation : ∀ (k : Nat) (t : Task), a.tasks[k]? = some t →
    ∃ op ins schema, p.node? t.node = some op ∧
    List.Forall₂ (p.HasSchema c) (p.inputs t.node) ins ∧
    operator c op ins = .ok (t.operator, schema) ∧ p.HasSchema c t.node schema
  /-- The answer is the channel of the root, -/
  answer : ∃ t, a.tasks[a.output]? = some t ∧ t.node = root
  /-- with the schema of the root. -/
  schema : p.HasSchema c root a.schema

theorem acceptable_of_assemble {a : Assembly} (h : p.assemble c = .ok a) :
    ∃ root, p.root = some root ∧ p.Acceptable c root ∧ Arranged p c root a := by
  obtain ⟨root, schemas, u, hroot, hl, hout, hun, hschema⟩ := layout_of_assemble h
  subst hun
  have htask : ∀ n, p.Reaches u.node n →
      ∃ (k : Nat) (t : Task), a.tasks[k]? = some t ∧ t.node = n := by
    rintro n ⟨path, hpath⟩
    exact hl.task_of_follow hout path n hpath
  refine ⟨u.node, hroot, ⟨?_, hl.onePath hout, ?_⟩, ⟨?_, hl.distinct, ?_, ?_, ?_, ?_, ?_⟩⟩
  · intro n hn
    obtain ⟨k, t, ht, rfl⟩ := htask n hn
    obtain ⟨op, ins, schema, hnode, hcount, -⟩ := (hl.laid k t ht).operation
    exact ⟨op, hnode, hcount⟩
  · intro n op ins hn hnode hins
    obtain ⟨k, t, ht, rfl⟩ := htask n hn
    exact hl.suits ht hnode hins
  · intro n
    constructor
    · intro hmem
      obtain ⟨t, ht, rfl⟩ := List.mem_map.mp hmem
      obtain ⟨k, hk⟩ := List.mem_iff_getElem?.mp ht
      exact hl.reaches hout _ k t rfl hk
    · intro hn
      obtain ⟨k, t, ht, rfl⟩ := htask n hn
      exact List.mem_map_of_mem (List.mem_of_getElem? ht)
  · intro k t ht
    exact (hl.laid k t ht).output
  · intro k t ht
    have hlaid := hl.laid k t ht
    exact (((List.forall₂_and_left _ _).mpr
      ⟨fun i hi => hlaid.earlier i hi, hlaid.inputs.flip⟩).flip).imp fun n i hi => hi
  · intro k t ht
    have hlaid := hl.laid k t ht
    obtain ⟨op, ins, schema, hnode, hcount, hins, hs, hop⟩ := hlaid.operation
    exact ⟨op, ins, schema, hnode, hl.hasSchemas ht hins, hop, hl.hasSchema k t schema ht hs⟩
  · exact ⟨u, hout, rfl⟩
  · exact hl.hasSchema _ u _ hout hschema

theorem assemble_of_acceptable {root : NodeId} (hroot : p.root = some root)
    (h : p.Acceptable c root) : ∃ a, p.assemble c = .ok a := by
  have hroom : p.unvisited [] < p.graph.size + 1 := by
    rw [Plan.unvisited_nil]
    exact Nat.lt_succ_self _
  obtain ⟨schema, hderive, -⟩ := derive_walk h (p.graph.size + 1) root [] hroom (.refl p root)
    fun m _ hmem => by simp at hmem
  have htree := Plan.tree_of_root hroot
  have hassemble := assemble_derive (c := c) hroot
  rw [htree, hderive] at hassemble
  cases hbuilt : p.assemble c with
  | ok a => exact ⟨a, rfl⟩
  | error err =>
      rw [hbuilt] at hassemble
      cases hassemble

/-- Connecting the operators of a plan never fails. -/
theorem assemble_ne_wiring {d : WiringDefect} : p.assemble c ≠ .error (.wiring d) := by
  intro h
  cases hroot : p.root with
  | none =>
      have htree : p.tree = .fault .noRoot := by
        unfold Plan.tree
        rw [hroot]
      simp [Plan.assemble, htree, add, bind, Except.bind] at h
  | some root =>
      have hassemble := assemble_derive (c := c) hroot
      rw [h] at hassemble
      exact derive_ne_wiring p.tree hassemble.symm

/-- **Any plan at all can be built from.**

The walk below the root ends by itself: any bound beyond the number of nodes gives the same tree.
No operator is connected out of order, to an input that is not there or to one that is taken.
A plan is assembled exactly if it is acceptable below its root, and then the tasks are
the operators of the nodes below the root, each reading the channels of its inputs. -/
theorem assembled_iff_acceptable (p : Plan) (c : Catalog) :
    (∀ root fuel, p.root = some root → p.graph.size < fuel →
      p.tree = (p.walk fuel root []).1) ∧
    (∀ d, p.assemble c ≠ .error (.wiring d)) ∧
    ((∃ a, p.assemble c = .ok a) ↔ ∃ root, p.root = some root ∧ p.Acceptable c root) ∧
    ∀ a, p.assemble c = .ok a → ∃ root, p.root = some root ∧ Arranged p c root a := by
  refine ⟨?_, fun d => assemble_ne_wiring, ⟨?_, ?_⟩, ?_⟩
  · intro root fuel hroot hfuel
    rw [Plan.tree_of_root hroot, p.walk_eq_of_room (p.graph.size + 1) fuel root []]
    · rw [Plan.unvisited_nil]
      exact Nat.lt_succ_self _
    · rw [Plan.unvisited_nil]
      exact hfuel
  · rintro ⟨a, ha⟩
    obtain ⟨root, hroot, haccept, -⟩ := acceptable_of_assemble ha
    exact ⟨root, hroot, haccept⟩
  · rintro ⟨root, hroot, haccept⟩
    exact assemble_of_acceptable hroot haccept
  · intro a ha
    obtain ⟨root, hroot, -, harranged⟩ := acceptable_of_assemble ha
    exact ⟨root, hroot, harranged⟩

end Assembly

end StreamQuery
