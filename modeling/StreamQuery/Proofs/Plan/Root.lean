/-
Where the root of a plan ends.

The root of a plan is the first operation that is added until an edge to it comes, and then it moves
to the operation that the edge comes from.  An edge that comes before the root has reached its end
does not move it, and it does not come a second time.  So the root climbs a way from the first
operation, and it gets to the top of a tree exactly if the edges on the way up are added one after
the other, the lowest first.  In any other order it stays below, and what runs is the part of the
tree below it.

The tree is given as the walk of the plan would give it, with its operations numbered by the order
in which they are added.  Since no number occurs twice, no operation has two edges to it.
-/
import StreamQuery.Proofs.Plan.Made
import StreamQuery.Proofs.Plan.Path

namespace StreamQuery

namespace PlanTree

/-! ### The nodes and links of a tree -/

/-- The node at the top of a tree. -/
def top? : PlanTree → Option NodeId
  | .fault _ => none
  | .node id _ _ => some id

mutual
/-- The nodes of a tree. -/
def ids : PlanTree → List NodeId
  | .fault _ => []
  | .node id _ inputs => id :: idsAll inputs
/-- The nodes of trees. -/
def idsAll : List PlanTree → List NodeId
  | [] => []
  | t :: ts => t.ids ++ idsAll ts
end

mutual
/-- The links of a tree, each from a node to one of its inputs, those of a node in order. -/
def links : PlanTree → List (NodeId × NodeId)
  | .fault _ => []
  | .node id _ inputs => (inputs.filterMap top?).map (fun m => (id, m)) ++ linksAll inputs
/-- The links of trees. -/
def linksAll : List PlanTree → List (NodeId × NodeId)
  | [] => []
  | t :: ts => t.links ++ linksAll ts
end

/-- A tree without faults, whose nodes have the operations of their numbers. -/
inductive Whole (nodes : List PlanNode) : PlanTree → Prop
  | node {id : NodeId} {op : PlanNode} {inputs : List PlanTree} (hop : nodes[id]? = some op)
      (hcount : inputs.length = op.inputCount) (hinputs : ∀ t ∈ inputs, Whole nodes t) :
      Whole nodes (.node id op inputs)

/-- A tree is part of another. -/
inductive Below : PlanTree → PlanTree → Prop
  | refl (t : PlanTree) : Below t t
  | input {r s : PlanTree} {id : NodeId} {op : PlanNode} {inputs : List PlanTree}
      (hs : s ∈ inputs) (h : Below r s) : Below r (.node id op inputs)

variable {nodes : List PlanNode} {t s : PlanTree} {ts : List PlanTree} {n : NodeId}

theorem mem_idsAll : n ∈ idsAll ts ↔ ∃ t ∈ ts, n ∈ t.ids := by
  induction ts with
  | nil => simp [idsAll]
  | cons t ts ih => simp [idsAll, ih]

theorem mem_linksAll {e : NodeId × NodeId} : e ∈ linksAll ts ↔ ∃ t ∈ ts, e ∈ t.links := by
  induction ts with
  | nil => simp [linksAll]
  | cons t ts ih => simp [linksAll, ih]

mutual
/-- The nodes of a tree are its top and the ends of its links. -/
theorem ids_perm : ∀ t : PlanTree, t.ids.Perm (t.top?.toList ++ t.links.map Prod.snd)
  | .fault _ => by simp [ids, top?, links]
  | .node id _ inputs => by
      have hbelow := idsAll_perm inputs
      simpa [ids, top?, links, Function.comp_def] using hbelow
theorem idsAll_perm : ∀ ts : List PlanTree,
    (idsAll ts).Perm (ts.filterMap top? ++ (linksAll ts).map Prod.snd)
  | [] => by simp [idsAll, linksAll]
  | t :: ts => by
      have htops : (t :: ts).filterMap top? = t.top?.toList ++ ts.filterMap top? := by
        cases htop : t.top? <;> simp [htop]
      rw [htops, idsAll, linksAll, List.map_append, List.append_assoc]
      refine ((ids_perm t).append (idsAll_perm ts)).trans ?_
      rw [List.append_assoc]
      refine List.Perm.append_left _ ?_
      rw [← List.append_assoc, ← List.append_assoc]
      exact List.perm_append_comm.append_right _
end

theorem top_of_whole (h : t.Whole nodes) : ∃ n, t.top? = some n := by
  cases h
  exact ⟨_, rfl⟩

/-- The inputs of a node without faults all have a top. -/
theorem map_some_tops (h : ∀ t ∈ ts, Whole nodes t) :
    (ts.filterMap top?).map some = ts.map top? := by
  induction ts with
  | nil => rfl
  | cons t ts ih =>
      rw [List.forall_mem_cons] at h
      obtain ⟨n, hn⟩ := top_of_whole h.1
      rw [List.filterMap_cons_some hn, List.map_cons, List.map_cons, ih h.2, hn]

/-- A link comes from a node of the tree. -/
theorem source_mem (h : t.Whole nodes) : ∀ e ∈ t.links, e.1 ∈ t.ids := by
  induction h with
  | node hop hcount hinputs ih =>
      intro e he
      rw [links] at he
      rw [ids]
      rcases List.mem_append.mp he with hown | hbelow
      · obtain ⟨m, -, rfl⟩ := List.mem_map.mp hown
        exact List.mem_cons_self
      · obtain ⟨s, hs, hlink⟩ := mem_linksAll.mp hbelow
        exact List.mem_cons_of_mem _ (mem_idsAll.mpr ⟨s, hs, ih s hs e hlink⟩)

theorem target_mem (t : PlanTree) : ∀ e ∈ t.links, e.2 ∈ t.ids := by
  intro e he
  rw [(ids_perm t).mem_iff]
  exact List.mem_append_right _ (List.mem_map_of_mem he)

/-- Every node of a tree is the top of a part of it. -/
theorem exists_below (h : t.Whole nodes) : ∀ n ∈ t.ids, ∃ s, Below s t ∧ top? s = some n := by
  induction h with
  | @node id op inputs hop hcount hinputs ih =>
      intro n hn
      rw [ids] at hn
      rcases List.mem_cons.mp hn with rfl | hbelow
      · exact ⟨_, .refl _, rfl⟩
      · obtain ⟨s, hs, hn⟩ := mem_idsAll.mp hbelow
        obtain ⟨r, hr, htop⟩ := ih s hs n hn
        exact ⟨r, .input hs hr, htop⟩

theorem ids_sublist_idsAll (hs : s ∈ ts) : s.ids.Sublist (idsAll ts) := by
  induction ts with
  | nil => simp at hs
  | cons t ts ih =>
      rw [idsAll]
      rcases List.mem_cons.mp hs with rfl | hs
      · exact List.sublist_append_left _ _
      · exact (ih hs).trans (List.sublist_append_right _ _)

theorem Below.ids_sublist (h : s.Below t) : s.ids.Sublist t.ids := by
  induction h with
  | refl => exact .refl _
  | input hs h ih =>
      rw [ids]
      exact (ih.trans (ids_sublist_idsAll hs)).cons _

/-- Links none of which come from a node hold none of its links. -/
theorem filter_source_eq_nil {l : List (NodeId × NodeId)} (h : ∀ e ∈ l, e.1 ≠ n) :
    l.filter (·.1 == n) = [] :=
  List.filter_eq_nil_iff.mpr fun e he => by simpa using h e he

/-- The links out of a node of one of several trees without common nodes are those of its tree. -/
theorem filter_linksAll (hwhole : ∀ t ∈ ts, Whole nodes t) (hnodup : (idsAll ts).Nodup)
    (hs : s ∈ ts) (hn : n ∈ s.ids) :
    (linksAll ts).filter (·.1 == n) = s.links.filter (·.1 == n) := by
  induction ts with
  | nil => simp at hs
  | cons t ts ih =>
      rw [idsAll, List.nodup_append] at hnodup
      obtain ⟨-, hrest, hapart⟩ := hnodup
      rw [List.forall_mem_cons] at hwhole
      rw [linksAll, List.filter_append]
      rcases List.mem_cons.mp hs with rfl | hs
      · have hothers : ∀ e ∈ linksAll ts, e.1 ≠ n := by
          rintro e he rfl
          obtain ⟨r, hr, hlink⟩ := mem_linksAll.mp he
          exact hapart _ hn _ (mem_idsAll.mpr ⟨r, hr, source_mem (hwhole.2 r hr) e hlink⟩) rfl
        rw [filter_source_eq_nil hothers, List.append_nil]
      · have hothers : ∀ e ∈ t.links, e.1 ≠ n := by
          rintro e he rfl
          exact hapart _ (source_mem hwhole.1 e he) _ (mem_idsAll.mpr ⟨s, hs, hn⟩) rfl
        rw [filter_source_eq_nil hothers, List.nil_append, ih hwhole.2 hrest hs]

end PlanTree

namespace Plan

/-! ### Climbing -/

/-- Where the root gets to from a node when these edges are added. -/
def climb (edges : List (NodeId × NodeId)) (n : NodeId) : NodeId :=
  edges.foldl (fun n e => if n = e.2 then e.1 else n) n

/-- Edges lead from a node, against their direction, up to a top. -/
def Climbs (top : NodeId) : NodeId → List (NodeId × NodeId) → Prop
  | n, [] => n = top
  | n, e :: way => e.2 = n ∧ Climbs top e.1 way

/-- The root climbs edges in the order in which they are added. -/
theorem climbs_climb : ∀ (edges : List (NodeId × NodeId)) (n : NodeId),
    ∃ way, way.Sublist edges ∧ Climbs (climb edges n) n way := by
  intro edges
  induction edges with
  | nil => intro n; exact ⟨[], .refl _, rfl⟩
  | cons e edges ih =>
      intro n
      by_cases hn : n = e.2
      · obtain ⟨way, hsub, hway⟩ := ih e.1
        refine ⟨e :: way, hsub.cons_cons e, hn.symm, ?_⟩
        rw [climb, List.foldl_cons, if_pos hn]
        exact hway
      · obtain ⟨way, hsub, hway⟩ := ih n
        refine ⟨way, hsub.cons e, ?_⟩
        rw [climb, List.foldl_cons, if_neg hn]
        exact hway

/-- The root gets to a top by a way whose edges are added one after the other, if no node has two
edges to it. -/
theorem climb_eq {top : NodeId} : ∀ {edges way : List (NodeId × NodeId)} {n : NodeId},
    (edges.map Prod.snd).Nodup → (∀ e ∈ edges, e.2 ≠ top) → way.Sublist edges →
    Climbs top n way → climb edges n = top := by
  intro edges
  induction edges with
  | nil =>
      intro way n _ _ hsub hway
      obtain rfl := List.sublist_nil.mp hsub
      exact hway
  | cons e edges ih =>
      intro way n hnodup htop hsub hway
      rw [List.map_cons, List.nodup_cons] at hnodup
      rw [List.forall_mem_cons] at htop
      rw [climb, List.foldl_cons, ← climb]
      cases way with
      | nil =>
          obtain rfl : n = top := hway
          rw [if_neg htop.1.symm]
          exact ih hnodup.2 htop.2 (List.nil_sublist _) rfl
      | cons f way =>
          obtain ⟨rfl, hup⟩ := hway
          rcases List.sublist_cons_iff.mp hsub with hlater | ⟨rest, hsame, hrest⟩
          · -- the edge that the way begins with comes later, and it is the only one to this node
            have hne : f.2 ≠ e.2 := by
              intro heq
              have hmem : f ∈ edges := hlater.subset List.mem_cons_self
              exact hnodup.1 (heq ▸ List.mem_map_of_mem hmem)
            rw [if_neg hne]
            exact ih hnodup.2 htop.2 hlater ⟨rfl, hup⟩
          · injection hsame with hfirst htail
            subst hfirst htail
            rw [if_pos rfl]
            exact ih hnodup.2 htop.2 hrest hup

/-! ### Building a plan -/

/-- The plan with these operations, added in order, and then these edges. -/
def build (nodes : List PlanNode) (edges : List (NodeId × NodeId)) : Except EdgeDefect Plan :=
  edges.foldlM (fun p e => p.addEdge e.1 e.2) (nodes.foldl addNode .empty)

/-- The graph of operations without edges. -/
def unlinked (nodes : List PlanNode) : Graph PlanNode :=
  ⟨nodes.map fun op => ⟨op, []⟩, 0⟩

/-- The graph of operations with edges, added in order. -/
def linked (nodes : List PlanNode) (edges : List (NodeId × NodeId)) : Graph PlanNode :=
  (unlinked nodes).attachAll (edges.map fun e => (e.1, [e.2]))

/-- The first operation becomes the root and stays it. -/
theorem foldl_addNode_of_root : ∀ (nodes : List PlanNode) {p : Plan} {r : NodeId},
    p.root = some r → nodes.foldl addNode p
      = ⟨⟨p.graph.nodes ++ nodes.map fun op => ⟨op, []⟩, p.graph.edgeCount⟩, some r⟩ := by
  intro nodes
  induction nodes with
  | nil =>
      intro p r hroot
      simp [← hroot]
  | cons op nodes ih =>
      intro p r hroot
      have hroot' : (p.addNode op).root = some r := by
        rw [addNode, hroot]
        rfl
      rw [List.foldl_cons, ih hroot']
      simp [addNode, Graph.addNode]

/-- Edges between nodes are all added, and the root climbs them. -/
theorem foldlM_addEdge : ∀ (edges : List (NodeId × NodeId)) {p : Plan} {n : NodeId},
    (∀ e ∈ edges, e.1 < p.graph.size ∧ e.2 < p.graph.size) → p.root = some n →
    edges.foldlM (fun p e => p.addEdge e.1 e.2) p
      = .ok ⟨p.graph.attachAll (edges.map fun e => (e.1, [e.2])), some (climb edges n)⟩ := by
  intro edges
  induction edges with
  | nil =>
      intro p n _ hroot
      rw [List.foldlM_nil]
      exact congrArg Except.ok (by rw [climb, List.foldl_nil, ← hroot]; rfl)
  | cons e edges ih =>
      intro p n hends hroot
      rw [List.forall_mem_cons] at hends
      have hadd : p.addEdge e.1 e.2
          = .ok ⟨p.graph.attach e.1 [e.2], some (if n = e.2 then e.1 else n)⟩ := by
        have hgraph : p.graph.addEdge e.1 e.2 = .ok (p.graph.attach e.1 [e.2]) :=
          Graph.addEdge_eq_ok.mpr ⟨hends.1.2, hends.1.1, rfl⟩
        have hmoved : p.rootAfter e.1 e.2 = some (if n = e.2 then e.1 else n) := by
          rw [rootAfter, hroot]
          by_cases hn : n = e.2
          · simp [hn]
          · simp [hn]
        rw [addEdge, hgraph, hmoved]
        rfl
      rw [List.foldlM_cons, hadd]
      exact ih (by simpa using hends.2) rfl

theorem build_eq {nodes : List PlanNode} {edges : List (NodeId × NodeId)} (hne : nodes ≠ [])
    (hends : ∀ e ∈ edges, e.1 < nodes.length ∧ e.2 < nodes.length) :
    build nodes edges = .ok ⟨linked nodes edges, some (climb edges 0)⟩ := by
  have hnodes : nodes.foldl addNode .empty = ⟨unlinked nodes, some 0⟩ := by
    cases nodes with
    | nil => exact absurd rfl hne
    | cons op nodes => exact foldl_addNode_of_root nodes rfl
  have hsize : (unlinked nodes).size = nodes.length := by simp [unlinked, Graph.size]
  rw [build, hnodes]
  exact foldlM_addEdge edges (by simpa [hsize] using hends) rfl

section Linked

variable {nodes : List PlanNode} {edges : List (NodeId × NodeId)} {root : Option NodeId}
  {n : NodeId}

theorem size_linked : (linked nodes edges).size = nodes.length := by
  rw [linked, Graph.size_attachAll]
  simp [unlinked, Graph.size]

/-- What the edges give a node. -/
theorem given_edges : Graph.given (edges.map fun e => (e.1, [e.2])) n
    = (edges.filter (·.1 == n)).map Prod.snd := by
  induction edges with
  | nil => rfl
  | cons e edges ih =>
      rw [List.map_cons, Graph.given_cons, ih]
      by_cases hn : e.1 = n
      · simp [hn]
      · simp [hn]

theorem node?_linked : Plan.node? ⟨linked nodes edges, root⟩ n = nodes[n]? := by
  rw [node?, Graph.data?, linked, Graph.getElem?_attachAll, unlinked, List.getElem?_map,
    Option.map_map, Option.map_map]
  simp [Function.comp_def]

theorem inputs_linked (hn : n < nodes.length) : Plan.inputs ⟨linked nodes edges, root⟩ n
    = (edges.filter (·.1 == n)).map Prod.snd := by
  have hnode : (linked nodes edges).nodes[n]?
      = some ⟨nodes[n], (edges.filter (·.1 == n)).map Prod.snd⟩ := by
    rw [linked, Graph.getElem?_attachAll, unlinked, List.getElem?_map,
      List.getElem?_eq_getElem hn, given_edges]
    rfl
  rw [inputs, Graph.targets]
  simp only [hnode]

end Linked

/-! ### Walking a tree that is there -/

/-- The nodes of a tree have their operations and inputs in a plan. -/
inductive Placed (p : Plan) : PlanTree → Prop
  | node {id : NodeId} {op : PlanNode} {ts : List PlanTree} (hop : p.node? id = some op)
      (hcount : ts.length = op.inputCount)
      (hinputs : (p.inputs id).map some = ts.map PlanTree.top?) (hts : ∀ t ∈ ts, Placed p t) :
      Placed p (.node id op ts)

/-- A walk gives a tree and visits its nodes. -/
def WalksAs (p : Plan) (fuel : Nat) (n : NodeId) (t : PlanTree) : Prop :=
  ∀ visited, (∀ k ∈ t.ids, k ∉ visited) → ∃ visited', p.walk fuel n visited = (t, visited') ∧
    ∀ k, k ∈ visited' → k ∈ t.ids ∨ k ∈ visited

variable {p : Plan} {t s : PlanTree} {n : NodeId}

theorem walkAll_of_walks {fuel : Nat} : ∀ {ts : List PlanTree} {ns : List NodeId},
    (∀ t ∈ ts, ∀ n, t.top? = some n → p.WalksAs fuel n t) → ns.map some = ts.map PlanTree.top? →
    (PlanTree.idsAll ts).Nodup → ∀ visited, (∀ k ∈ PlanTree.idsAll ts, k ∉ visited) →
      ∃ visited', p.walkAll fuel ns visited = (ts, visited') ∧
        ∀ k, k ∈ visited' → k ∈ PlanTree.idsAll ts ∨ k ∈ visited := by
  intro ts
  induction ts with
  | nil =>
      intro ns _ htops _ visited _
      obtain rfl : ns = [] := by simpa using htops
      exact ⟨visited, rfl, fun k hk => .inr hk⟩
  | cons t ts ih =>
      intro ns hwalk htops hnodup visited hfresh
      cases ns with
      | nil => simp at htops
      | cons n ns =>
          rw [List.map_cons, List.map_cons] at htops
          injection htops with htop htops
          rw [List.forall_mem_cons] at hwalk
          rw [PlanTree.idsAll] at hnodup hfresh ⊢
          obtain ⟨-, hrest, hapart⟩ := List.nodup_append.mp hnodup
          obtain ⟨visited₁, hfirst, hmem₁⟩ := hwalk.1 n htop.symm visited
            fun k hk => hfresh k (List.mem_append_left _ hk)
          have hfresh₁ : ∀ k ∈ PlanTree.idsAll ts, k ∉ visited₁ := by
            intro k hk hvisited
            rcases hmem₁ k hvisited with hfirst | hbefore
            · exact hapart k hfirst k hk rfl
            · exact hfresh k (List.mem_append_right _ hk) hbefore
          obtain ⟨visited', hothers, hmem⟩ := ih hwalk.2 htops hrest visited₁ hfresh₁
          refine ⟨visited', ?_, ?_⟩
          · simp only [walkAll, hfirst, hothers]
          · intro k hk
            rcases hmem k hk with hother | hbefore
            · exact .inl (List.mem_append_right _ hother)
            · exact (hmem₁ k hbefore).imp_left (List.mem_append_left _)

/-- **A walk from the top of a tree that is there gives the tree.** -/
theorem Placed.walks (h : p.Placed t) : ∀ {fuel : Nat} {n : NodeId}, t.ids.Nodup →
    t.ids.length ≤ fuel → t.top? = some n → p.WalksAs fuel n t := by
  induction h with
  | @node id op ts hop hcount hinputs hts ih =>
      intro fuel n hnodup hroom htop visited hfresh
      obtain rfl : id = n := Option.some.inj htop
      rw [PlanTree.ids] at hnodup hroom hfresh
      rw [List.nodup_cons] at hnodup
      rw [List.forall_mem_cons] at hfresh
      rw [List.length_cons] at hroom
      obtain ⟨fuel, rfl⟩ : ∃ k, fuel = k + 1 := ⟨fuel - 1, by omega⟩
      have hwalk : ∀ t ∈ ts, ∀ n, t.top? = some n → p.WalksAs fuel n t := by
        intro t ht n htop
        have hsub := PlanTree.ids_sublist_idsAll ht
        exact ih t ht (hsub.nodup hnodup.2) (by have := hsub.length_le; omega) htop
      have hfresh' : ∀ k ∈ PlanTree.idsAll ts, k ∉ id :: visited := by
        intro k hk hmem
        rcases List.mem_cons.mp hmem with rfl | hvisited
        · exact hnodup.1 hk
        · exact hfresh.2 k hk hvisited
      obtain ⟨visited', hall, hmem⟩ := walkAll_of_walks hwalk hinputs hnodup.2 _ hfresh'
      have hlength : (p.inputs id).length = op.inputCount := by
        rw [← hcount]
        simpa using congrArg List.length hinputs
      refine ⟨visited', ?_, ?_⟩
      · simp only [walk_succ, if_neg hfresh.1, hop, if_pos hlength, hall]
      · intro k hk
        rw [PlanTree.ids]
        rcases hmem k hk with hbelow | hcons
        · exact .inl (List.mem_cons_of_mem _ hbelow)
        · rcases List.mem_cons.mp hcons with rfl | hvisited
          · exact .inl List.mem_cons_self
          · exact .inr hvisited

theorem Placed.of_below (h : p.Placed t) (hs : s.Below t) : p.Placed s := by
  induction hs with
  | refl => exact h
  | input hmem _ ih =>
      cases h with
      | node _ _ _ hts => exact ih (hts _ hmem)

/-- The tree below the root of a plan is the part of a tree that is there whose top is the root. -/
theorem Placed.tree (h : p.Placed t) (hnodup : t.ids.Nodup) (hsize : t.ids.length ≤ p.graph.size)
    (hs : s.Below t) (htop : s.top? = some n) (hroot : p.root = some n) : p.tree = s := by
  have hsub := hs.ids_sublist
  have hroom : s.ids.length ≤ p.graph.size + 1 := by
    have := hsub.length_le
    omega
  obtain ⟨visited, hwalk, -⟩ :=
    (h.of_below hs).walks (hsub.nodup hnodup) hroom htop [] (by simp)
  rw [tree_of_root hroot, hwalk]

/-- A tree is there if each of its nodes has the operation of its number and what its links give
it. -/
theorem placed_of_whole {nodes : List PlanNode} (h : t.Whole nodes) : t.ids.Nodup →
    (∀ n ∈ t.ids, p.node? n = nodes[n]? ∧
      p.inputs n = (t.links.filter (·.1 == n)).map Prod.snd) → p.Placed t := by
  induction h with
  | @node id op ts hop hcount hts ih =>
      intro hnodup hplan
      rw [PlanTree.ids, List.nodup_cons] at hnodup
      rw [PlanTree.ids, List.forall_mem_cons] at hplan
      obtain ⟨⟨hnode, hinputs⟩, hbelow⟩ := hplan
      have hown : ((ts.filterMap PlanTree.top?).map fun m => (id, m)).filter (·.1 == id)
          = (ts.filterMap PlanTree.top?).map fun m => (id, m) := by
        rw [List.filter_eq_self]
        intro e he
        obtain ⟨m, -, rfl⟩ := List.mem_map.mp he
        simp
      have hothers : ∀ e ∈ PlanTree.linksAll ts, e.1 ≠ id := by
        rintro e he rfl
        obtain ⟨r, hr, hlink⟩ := PlanTree.mem_linksAll.mp he
        exact hnodup.1 (PlanTree.mem_idsAll.mpr ⟨r, hr, PlanTree.source_mem (hts r hr) e hlink⟩)
      rw [PlanTree.links, List.filter_append, hown, PlanTree.filter_source_eq_nil hothers,
        List.append_nil, List.map_map] at hinputs
      refine .node (hnode.trans hop) hcount ?_ ?_
      · rw [hinputs, ← PlanTree.map_some_tops hts]
        simp [Function.comp_def]
      · intro s hs
        refine ih s hs ((PlanTree.ids_sublist_idsAll hs).nodup hnodup.2) ?_
        intro n hn
        have hmem : n ∈ PlanTree.idsAll ts := PlanTree.mem_idsAll.mpr ⟨s, hs, hn⟩
        obtain ⟨hnode', hinputs'⟩ := hbelow n hmem
        refine ⟨hnode', ?_⟩
        have hown' : ∀ e ∈ (ts.filterMap PlanTree.top?).map fun m => (id, m), e.1 ≠ n := by
          rintro e he rfl
          obtain ⟨m, -, rfl⟩ := List.mem_map.mp he
          exact hnodup.1 hmem
        rw [hinputs', PlanTree.links, List.filter_append, PlanTree.filter_source_eq_nil hown',
          List.nil_append, PlanTree.filter_linksAll hts hnodup.2 hs hn]

/-! ### Trees that are added -/

/-- The operations of a tree are added in the order of `nodes`, which numbers them, and its links in
the order of `edges`, in which each node gets its inputs in order. -/
structure Adds (t : PlanTree) (nodes : List PlanNode) (edges : List (NodeId × NodeId)) : Prop where
  whole : t.Whole nodes
  numbers : t.ids.Perm (List.range nodes.length)
  inputs : ∀ n, edges.filter (·.1 == n) = t.links.filter (·.1 == n)

namespace Adds

variable {nodes : List PlanNode} {edges : List (NodeId × NodeId)} {top : NodeId}

theorem mem_ids (h : Adds t nodes edges) : n ∈ t.ids ↔ n < nodes.length := by
  rw [h.numbers.mem_iff, List.mem_range]

theorem nodup (h : Adds t nodes edges) : t.ids.Nodup :=
  h.numbers.nodup_iff.mpr List.nodup_range

theorem length_ids (h : Adds t nodes edges) : t.ids.length = nodes.length := by
  rw [h.numbers.length_eq, List.length_range]

theorem ne_nil (h : Adds t nodes edges) (htop : t.top? = some top) : nodes ≠ [] := by
  have hmem : top ∈ t.ids := by
    rw [(PlanTree.ids_perm t).mem_iff, htop]
    simp
  rintro rfl
  simpa using h.mem_ids.mp hmem

/-- The edges are the links of the tree. -/
theorem edges_perm (h : Adds t nodes edges) : edges.Perm t.links := by
  rw [List.perm_iff_count]
  intro e
  have hown : ∀ l : List (NodeId × NodeId), l.count e = (l.filter (·.1 == e.1)).count e := by
    intro l
    rw [List.count_filter (by simp)]
  rw [hown, h.inputs, ← hown]

theorem ends_lt (h : Adds t nodes edges) :
    ∀ e ∈ edges, e.1 < nodes.length ∧ e.2 < nodes.length := by
  intro e he
  rw [h.edges_perm.mem_iff] at he
  exact ⟨h.mem_ids.mp (PlanTree.source_mem h.whole e he),
    h.mem_ids.mp (PlanTree.target_mem t e he)⟩

/-- The top and the ends of the edges are all nodes, each once. -/
theorem ids_perm_targets (h : Adds t nodes edges) (htop : t.top? = some top) :
    t.ids.Perm (top :: edges.map Prod.snd) := by
  have hperm := PlanTree.ids_perm t
  rw [htop] at hperm
  exact hperm.trans ((h.edges_perm.map Prod.snd).symm.cons top)

theorem targets_nodup (h : Adds t nodes edges) (htop : t.top? = some top) :
    (edges.map Prod.snd).Nodup ∧ ∀ e ∈ edges, e.2 ≠ top := by
  have hnodup := (h.ids_perm_targets htop).nodup_iff.mp h.nodup
  rw [List.nodup_cons] at hnodup
  refine ⟨hnodup.2, ?_⟩
  rintro e he rfl
  exact hnodup.1 (List.mem_map_of_mem he)

/-- The top is the one node that feeds no other. -/
theorem eq_top_iff (h : Adds t nodes edges) (htop : t.top? = some top) (hn : n < nodes.length) :
    n = top ↔ ∀ e ∈ edges, e.2 ≠ n := by
  constructor
  · rintro rfl
    exact (h.targets_nodup htop).2
  · intro hnone
    have hmem := (h.ids_perm_targets htop).mem_iff.mp (h.mem_ids.mpr hn)
    rcases List.mem_cons.mp hmem with heq | htarget
    · exact heq
    · obtain ⟨e, he, rfl⟩ := List.mem_map.mp htarget
      exact absurd rfl (hnone e he)

/-- The root climbs from the first operation to a node of the tree. -/
theorem climb_mem (h : Adds t nodes edges) (htop : t.top? = some top) : climb edges 0 ∈ t.ids := by
  have hstep : ∀ (l : List (NodeId × NodeId)) (n : NodeId), (∀ e ∈ l, e ∈ edges) → n ∈ t.ids →
      climb l n ∈ t.ids := by
    intro l
    induction l with
    | nil => intro n _ hn; exact hn
    | cons e l ih =>
        intro n hl hn
        rw [List.forall_mem_cons] at hl
        rw [climb, List.foldl_cons, ← climb]
        refine ih _ hl.2 ?_
        by_cases heq : n = e.2
        · rw [if_pos heq, h.mem_ids]
          exact (h.ends_lt e hl.1).1
        · rw [if_neg heq]
          exact hn
  refine hstep edges 0 (fun _ he => he) (h.mem_ids.mpr ?_)
  exact List.length_pos_iff.mpr (h.ne_nil htop)

theorem placed (h : Adds t nodes edges) (root : Option NodeId) :
    Placed ⟨linked nodes edges, root⟩ t := by
  refine placed_of_whole h.whole h.nodup ?_
  intro n hn
  rw [← h.inputs n]
  exact ⟨node?_linked, inputs_linked (h.mem_ids.mp hn)⟩

end Adds

/-- A scan, the first operation, under two filters. -/
def twoFilters : PlanTree :=
  .node 2 (.filter (.literal (.bool true)))
    [.node 1 (.filter (.literal (.bool true))) [.node 0 (.scan "t") []]]

/-- The operations of the two filters and the scan, the scan first. -/
def twoFilterNodes : List PlanNode :=
  [.scan "t", .filter (.literal (.bool true)), .filter (.literal (.bool true))]

theorem twoFilters_adds {edges : List (NodeId × NodeId)} (h : edges.Perm [(2, 1), (1, 0)]) :
    Adds twoFilters twoFilterNodes edges where
  whole := by
    have hscan : PlanTree.Whole twoFilterNodes (.node 0 (.scan "t") []) :=
      .node rfl rfl (by simp)
    have hfilter : PlanTree.Whole twoFilterNodes
        (.node 1 (.filter (.literal (.bool true))) [.node 0 (.scan "t") []]) :=
      .node rfl rfl (by simpa using hscan)
    exact .node rfl rfl (by simpa using hfilter)
  numbers := by decide
  inputs := by
    -- no node has two inputs, so the order of the edges does not matter
    intro n
    have hperm := h.filter (·.1 == n)
    have hlinks : twoFilters.links = [(2, 1), (1, 0)] := rfl
    have hshort : ([(2, 1), (1, 0)] : List (NodeId × NodeId)).filter (·.1 == n) = [] ∨
        ∃ e, ([(2, 1), (1, 0)] : List (NodeId × NodeId)).filter (·.1 == n) = [e] := by
      by_cases h2 : n = 2
      · subst h2
        exact .inr ⟨(2, 1), rfl⟩
      · by_cases h1 : n = 1
        · subst h1
          exact .inr ⟨(1, 0), rfl⟩
        · left
          simp [Ne.symm h2, Ne.symm h1]
    rw [hlinks]
    rcases hshort with hnil | ⟨e, hone⟩
    · rw [hnil] at hperm ⊢
      exact hperm.eq_nil
    · rw [hone] at hperm ⊢
      exact List.perm_singleton.mp hperm

/-- **The root of a plan is the top of its tree exactly if the edges on the way up from the first
operation are added lowest first.**

A tree of operations is added to an empty plan, first the operations in any order and then the edges
in any order that gives each operation its inputs in order.  All edges are taken.  The top of the
tree is the one node that feeds no other.  The root is the top if and only if the edges that lead up
to it from the first operation were added in that order, and if and only if the tree below the root
is the whole tree; otherwise it is the part of the tree below the root. -/
theorem root_of_build {nodes : List PlanNode} {edges : List (NodeId × NodeId)} {top : NodeId}
    (h : Adds t nodes edges) (htop : t.top? = some top) :
    ∃ p, build nodes edges = .ok p ∧
      (∀ n < nodes.length, n = top ↔ ∀ e ∈ edges, e.2 ≠ n) ∧
      (p.root = some top ↔ ∃ way, way.Sublist edges ∧ Climbs top 0 way) ∧
      (p.root = some top ↔ p.tree = t) ∧
      ∃ s, s.Below t ∧ s.top? = p.root ∧ p.tree = s := by
  obtain ⟨s, hs, hstop⟩ := PlanTree.exists_below h.whole _ (h.climb_mem htop)
  have hsize : t.ids.length ≤ (linked nodes edges).size := by
    rw [size_linked, h.length_ids]
  have hplaced := h.placed (some (climb edges 0))
  have hpart := hplaced.tree h.nodup hsize hs hstop rfl
  refine ⟨_, build_eq (h.ne_nil htop) h.ends_lt, fun n hn => h.eq_top_iff htop hn, ?_, ?_,
    s, hs, hstop, hpart⟩
  · constructor
    · intro hroot
      obtain ⟨way, hsub, hway⟩ := climbs_climb edges 0
      rw [Option.some.inj hroot] at hway
      exact ⟨way, hsub, hway⟩
    · rintro ⟨way, hsub, hway⟩
      obtain ⟨hnodup, hnone⟩ := h.targets_nodup htop
      exact congrArg some (climb_eq hnodup hnone hsub hway)
  · constructor
    · intro hroot
      exact hplaced.tree h.nodup hsize (.refl t) htop hroot
    · intro hwhole
      rw [← htop, ← hwhole, hpart, hstop]

/-- Added lowest first, the edges take the root from the scan to the upper filter. -/
theorem root_of_build_lowest_first :
    ∃ p, build twoFilterNodes [(1, 0), (2, 1)] = .ok p ∧ p.root = some 2 ∧ p.tree = twoFilters := by
  have hadds : Adds twoFilters twoFilterNodes [(1, 0), (2, 1)] := twoFilters_adds (.swap _ _ _)
  have hfilter : twoFilters.top? = some 2 := rfl
  obtain ⟨p, hbuild, -, hroot, htree, -⟩ := root_of_build hadds hfilter
  have htop : p.root = some 2 := hroot.mpr ⟨[(1, 0), (2, 1)], .refl _, rfl, rfl, rfl⟩
  exact ⟨p, hbuild, htop, htree.mp htop⟩

/-- Added highest first, the edges leave the root at the lower filter. -/
theorem root_stays_below :
    ∃ p, Adds twoFilters twoFilterNodes [(2, 1), (1, 0)] ∧ twoFilters.top? = some 2 ∧
      build twoFilterNodes [(2, 1), (1, 0)] = .ok p ∧
      (∀ n < twoFilterNodes.length, n = 2 ↔ ∀ e ∈ [(2, 1), (1, 0)], e.2 ≠ n) ∧
      p.root = some 1 ∧ p.tree ≠ twoFilters := by
  have hadds : Adds twoFilters twoFilterNodes [(2, 1), (1, 0)] := twoFilters_adds (.refl _)
  refine ⟨⟨linked twoFilterNodes [(2, 1), (1, 0)], some 1⟩, hadds, rfl, rfl, ?_, rfl, ?_⟩
  · intro n hn
    exact hadds.eq_top_iff rfl hn
  · intro hwhole
    have htop := congrArg PlanTree.top? hwhole
    have hbelow : PlanTree.top? (Plan.tree ⟨linked twoFilterNodes [(2, 1), (1, 0)], some 1⟩)
        = some 1 := rfl
    rw [hbelow] at htop
    cases htop

end Plan

end StreamQuery
