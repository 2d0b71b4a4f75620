/-
Plans that can be had.

A plan is built by adding operations and edges, or it is read from the entries of a text,
and a plan that was read may be built on.  However it was had, its edges end in operations
of its own and are counted, and its root is one of its operations.  Each way of having a
plan keeps this; reading adds the edges one by one, so it rests on the same step.

No row of a text is a closing mark, so only operations without one among their rows are added
here: the operations of a plan are then those that it was given, and none holds a mark.
-/
import StreamQuery.Json.Plan

namespace StreamQuery

namespace Graph

variable {α : Type} {g g' : Graph α}

/-- Every edge ends in a node, and the edges are counted. -/
structure Proper (g : Graph α) : Prop where
  ends : ∀ node ∈ g.nodes, ∀ target ∈ node.targets, target < g.size
  counted : g.edgeCount = total (g.nodes.map fun node => node.targets.length)

/-- The graph with more edges behind the others out of a node. -/
def attach (g : Graph α) (source : NodeId) (targets : List NodeId) : Graph α where
  nodes := g.nodes.modify source fun n => { n with targets := n.targets ++ targets }
  edgeCount := g.edgeCount + targets.length

@[simp]
theorem size_attach (source : NodeId) (targets : List NodeId) :
    (g.attach source targets).size = g.size :=
  List.length_modify _ _ _

/-- The nodes hold what they held. -/
theorem data_attach (source : NodeId) (targets : List NodeId) :
    (g.attach source targets).nodes.map Node.data = g.nodes.map Node.data := by
  refine List.ext_getElem? fun i => ?_
  rw [List.getElem?_map, List.getElem?_map, attach, List.getElem?_modify]
  cases g.nodes[i]? with
  | none => rfl
  | some node =>
      refine congrArg some ?_
      dsimp only
      split <;> rfl

theorem attach_attach (source : NodeId) (ts us : List NodeId) :
    (g.attach source ts).attach source us = g.attach source (ts ++ us) := by
  unfold attach
  rw [List.modify_modify_eq, List.length_append, Nat.add_assoc]
  congr 2
  funext n
  exact congrArg (Node.mk n.data) (List.append_assoc _ _ _)

theorem attach_nil (source : NodeId) : g.attach source [] = g := by
  have hid : (fun n : Node α => { n with targets := n.targets ++ [] }) = id := by
    funext n
    exact congrArg (Node.mk n.data) (List.append_nil _)
  unfold attach
  rw [hid, List.modify_id]
  rfl

/-- An edge is added exactly if both its ends are nodes. -/
theorem addEdge_eq_ok {source target : NodeId} :
    g.addEdge source target = .ok g' ↔
      target < g.size ∧ source < g.size ∧ g' = g.attach source [target] := by
  unfold addEdge attach
  split
  · split
    · rename_i ht hs
      constructor
      · intro h
        cases h
        exact ⟨ht, hs, rfl⟩
      · rintro ⟨-, -, rfl⟩
        rfl
    · rename_i hs
      exact ⟨nofun, fun h => absurd h.2.1 hs⟩
  · rename_i ht
    exact ⟨nofun, fun h => absurd h.1 ht⟩

/-- A weight of one element counts once in a sum. -/
theorem total_modify {β : Type} {w : β → Nat} {f : β → β} {c : Nat} (hf : ∀ b, w (f b) = w b + c) :
    ∀ {l : List β} {i : Nat}, i < l.length →
      total ((l.modify i f).map w) = total (l.map w) + c := by
  intro l
  induction l with
  | nil => intro i hi; cases hi
  | cons b l ih =>
      intro i hi
      cases i with
      | zero =>
          rw [List.modify_zero_cons, List.map_cons, List.map_cons, total_cons, total_cons, hf]
          omega
      | succ i =>
          rw [List.modify_succ_cons, List.map_cons, List.map_cons, total_cons, total_cons,
            ih (by simpa using hi)]
          omega

theorem Proper.empty : (empty : Graph α).Proper where
  ends := by
    intro node hnode
    cases hnode
  counted := rfl

theorem Proper.addNode (h : g.Proper) (data : α) : (g.addNode data).Proper where
  ends := by
    intro node hnode target htarget
    have hsize : (g.addNode data).size = g.size + 1 := by simp [Graph.addNode, size]
    rw [hsize]
    rcases List.mem_append.mp hnode with hold | hnew
    · exact Nat.lt_succ_of_lt (h.ends node hold target htarget)
    · rw [List.mem_singleton] at hnew
      subst hnew
      cases htarget
  counted := by
    have hperm := List.perm_append_singleton 0 (g.nodes.map fun node => node.targets.length)
    unfold Graph.addNode
    rw [h.counted, List.map_append, List.map_singleton, List.length_nil, total_perm hperm,
      total_cons, Nat.zero_add]

theorem Proper.attach (h : g.Proper) {source : NodeId} {targets : List NodeId}
    (hsource : source < g.size) (htargets : ∀ target ∈ targets, target < g.size) :
    (g.attach source targets).Proper where
  ends := by
    intro node hnode target htarget
    rw [size_attach]
    obtain ⟨i, hi⟩ := List.mem_iff_getElem?.mp hnode
    rw [Graph.attach, List.getElem?_modify] at hi
    obtain ⟨before, hbefore, rfl⟩ := Option.map_eq_some_iff.mp hi
    have hold := h.ends before (List.mem_of_getElem? hbefore)
    split at htarget
    · rcases List.mem_append.mp htarget with htarget | htarget
      · exact hold target htarget
      · exact htargets target htarget
    · exact hold target htarget
  counted := by
    have hsum := total_modify (w := fun node : Node α => node.targets.length)
      (f := fun n => { n with targets := n.targets ++ targets })
      (fun _ => List.length_append) hsource
    unfold Graph.attach
    rw [hsum, h.counted]

/-! ### Inputs given entry by entry -/

/-- The graph with the edges of each entry behind the others out of its node. -/
def attachAll (g : Graph α) (links : List (NodeId × List NodeId)) : Graph α :=
  links.foldl (fun g link => g.attach link.1 link.2) g

/-- What the entries of a node give it, one behind the other. -/
def given (links : List (NodeId × List NodeId)) (n : NodeId) : List NodeId :=
  (links.filter fun link => link.1 == n).flatMap Prod.snd

theorem given_cons (link : NodeId × List NodeId) (links : List (NodeId × List NodeId))
    (n : NodeId) :
    given (link :: links) n = (if link.1 = n then link.2 else []) ++ given links n := by
  unfold given
  by_cases hn : link.1 = n
  · rw [List.filter_cons_of_pos (by simpa using hn), List.flatMap_cons, if_pos hn]
  · rw [List.filter_cons_of_neg (by simpa using hn), if_neg hn, List.nil_append]

/-- A node without an entry gets nothing. -/
theorem given_eq_nil {n : NodeId} {links : List (NodeId × List NodeId)}
    (h : ∀ link ∈ links, link.1 ≠ n) : given links n = [] := by
  unfold given
  rw [List.filter_eq_nil_iff.mpr fun link hlink => by simpa using h link hlink]
  rfl

/-- A node with one entry gets what the entry says. -/
theorem given_of_mem {n : NodeId} {targets : List NodeId} :
    ∀ {links : List (NodeId × List NodeId)}, (links.map Prod.fst).Nodup → (n, targets) ∈ links →
      given links n = targets := by
  intro links
  induction links with
  | nil => intro _ hmem; cases hmem
  | cons link links ih =>
      intro hnodup hmem
      rw [List.map_cons, List.nodup_cons] at hnodup
      rw [given_cons]
      rcases List.mem_cons.mp hmem with rfl | hmem
      · have hnone : ∀ link ∈ links, link.1 ≠ n := by
          rintro link hlink rfl
          have hagain : link.1 ∈ links.map Prod.fst := List.mem_map_of_mem hlink
          exact hnodup.1 hagain
        rw [if_pos rfl, given_eq_nil hnone, List.append_nil]
      · have hentry : n ∈ links.map Prod.fst := List.mem_map.mpr ⟨_, hmem, rfl⟩
        have hother : link.1 ≠ n := by
          rintro rfl
          exact hnodup.1 hentry
        rw [if_neg hother, List.nil_append, ih hnodup.2 hmem]

/-- A node keeps its edges, and behind them come those that its entries give it. -/
theorem getElem?_attachAll : ∀ (links : List (NodeId × List NodeId)) (g : Graph α) (n : NodeId),
    (g.attachAll links).nodes[n]?
      = g.nodes[n]?.map fun node => { node with targets := node.targets ++ given links n } := by
  intro links
  induction links with
  | nil =>
      intro g n
      simp [attachAll, given]
  | cons link links ih =>
      intro g n
      have hnode : (g.attach link.1 link.2).nodes[n]? = g.nodes[n]?.map fun node =>
          if link.1 = n then { node with targets := node.targets ++ link.2 } else node :=
        List.getElem?_modify _ _ _ _
      rw [attachAll, List.foldl_cons, ← attachAll, ih, hnode, Option.map_map]
      refine congrArg (Option.map · _) (funext fun node => ?_)
      rw [given_cons]
      by_cases hn : link.1 = n
      · simp [hn]
      · simp [hn]

theorem edgeCount_attachAll : ∀ (links : List (NodeId × List NodeId)) (g : Graph α),
    (g.attachAll links).edgeCount
      = g.edgeCount + total (links.map fun link => link.2.length) := by
  intro links
  induction links with
  | nil => intro g; rfl
  | cons link links ih =>
      intro g
      rw [attachAll, List.foldl_cons, ← attachAll, ih, attach, List.map_cons, total_cons,
        Nat.add_assoc]

theorem size_attachAll : ∀ (links : List (NodeId × List NodeId)) (g : Graph α),
    (g.attachAll links).size = g.size := by
  intro links
  induction links with
  | nil => intro g; rfl
  | cons link links ih =>
      intro g
      rw [attachAll, List.foldl_cons, ← attachAll, ih, size_attach]

end Graph

namespace Plan

variable {p : Plan}

/-- The graph of a plan is proper and its root is one of its operations. -/
structure Proper (p : Plan) : Prop where
  graph : p.graph.Proper
  root : ∀ n, p.root = some n → n < p.graph.size

/-- A plan that can be had with no closing mark among its rows. -/
inductive Made : Plan → Prop
  | empty : Made .empty
  | addNode {p : Plan} (h : Made p) (op : PlanNode) (hop : op.RowsOnly) : Made (p.addNode op)
  /-- An edge is added that is not refused. -/
  | addEdge {p p' : Plan} (h : Made p) (source target : NodeId)
      (hadd : p.addEdge source target = .ok p') : Made p'
  /-- The plan is read from the entries of a text, whatever their order. -/
  | read {e : Entries} {p : Plan} (hrows : ∀ node ∈ e.nodes, node.2.RowsOnly)
      (hread : ofEntries? e = some p) : Made p

/-! ### Reading edge by edge -/

/-- The operations without their inputs. -/
def bare (nodes : List (String × PlanNode)) : Graph PlanNode :=
  ⟨nodes.map fun n => ⟨n.2, []⟩, 0⟩

/-- Adds the inputs of one entry. -/
def addEntry (nodes : List (String × PlanNode)) (g : Graph PlanNode)
    (edge : String × List String) : Option (Graph PlanNode) := do
  let _ ← numberOf? nodes edge.1
  addInputs nodes edge.1 g edge.2

/-- The number of the root among operations in order. -/
def rootOf? (nodes : List (String × PlanNode)) : Option String → Option (Option NodeId)
  | none => some none
  | some key => (numberOf? nodes key).map some

theorem foldl_addNode : ∀ (nodes : List (String × PlanNode)) (g : Graph PlanNode),
    nodes.foldl (fun g n => g.addNode n.2) g
      = ⟨g.nodes ++ nodes.map fun n => ⟨n.2, []⟩, g.edgeCount⟩ := by
  intro nodes
  induction nodes with
  | nil => intro g; simp
  | cons n nodes ih =>
      intro g
      rw [List.foldl_cons, ih]
      simp [Graph.addNode]

/-- A plan is read by naming the root and adding the entries to the bare operations. -/
theorem ofEntries?_eq (e : Entries) : ofEntries? e = (do
    let root ← rootOf? e.ranked e.root
    let graph ← e.edges.foldlM (addEntry e.ranked) (bare e.ranked)
    some { graph, root }) := by
  have hbare : e.ranked.foldl (fun g n => g.addNode n.2) .empty = bare e.ranked :=
    foldl_addNode e.ranked .empty
  unfold ofEntries? rootOf?
  simp only [hbare]
  cases e.root <;> rfl

theorem proper_bare (nodes : List (String × PlanNode)) : (bare nodes).Proper where
  ends := by
    intro node hnode target htarget
    obtain ⟨n, -, rfl⟩ := List.mem_map.mp hnode
    cases htarget
  counted := by
    unfold bare
    rw [List.map_map]
    refine (List.sum_eq_zero_iff_forall_eq_nat.mpr fun w hw => ?_).symm
    obtain ⟨n, -, rfl⟩ := List.mem_map.mp hw
    rfl

variable {nodes : List (String × PlanNode)} {g g' : Graph PlanNode}

theorem addInputs_proper {source : String} : ∀ {targets : List String} {g : Graph PlanNode},
    g.Proper → addInputs nodes source g targets = some g' →
      g'.Proper ∧ g'.nodes.map Graph.Node.data = g.nodes.map Graph.Node.data := by
  intro targets
  induction targets with
  | nil =>
      intro g hg h
      cases h
      exact ⟨hg, rfl⟩
  | cons target targets ih =>
      intro g hg h
      rw [addInputs] at h
      obtain ⟨s, -, h⟩ := Option.bind_eq_some_iff.mp h
      obtain ⟨t, -, h⟩ := Option.bind_eq_some_iff.mp h
      split at h
      · rename_i g₁ hadd
        obtain ⟨ht, hs, rfl⟩ := Graph.addEdge_eq_ok.mp hadd
        obtain ⟨hproper, hdata⟩ := ih (hg.attach hs (by simpa using ht)) h
        exact ⟨hproper, hdata.trans (Graph.data_attach _ _)⟩
      · cases h

theorem addEntries_proper : ∀ {edges : List (String × List String)} {g : Graph PlanNode},
    g.Proper → edges.foldlM (addEntry nodes) g = some g' →
      g'.Proper ∧ g'.nodes.map Graph.Node.data = g.nodes.map Graph.Node.data := by
  intro edges
  induction edges with
  | nil =>
      intro g hg h
      cases h
      exact ⟨hg, rfl⟩
  | cons edge edges ih =>
      intro g hg h
      rw [List.foldlM_cons] at h
      obtain ⟨g₁, hentry, h⟩ := Option.bind_eq_some_iff.mp h
      obtain ⟨s, -, hentry⟩ := Option.bind_eq_some_iff.mp hentry
      obtain ⟨hfirst, hdata⟩ := addInputs_proper hg hentry
      obtain ⟨hproper, hrest⟩ := ih hfirst h
      exact ⟨hproper, hrest.trans hdata⟩

theorem rootOf?_lt {key : Option String} {root : Option NodeId} {n : NodeId}
    (h : rootOf? nodes key = some root) (hn : root = some n) : n < nodes.length := by
  subst hn
  cases key with
  | none => cases h
  | some key =>
      obtain ⟨m, hm, hn⟩ := Option.map_eq_some_iff.mp h
      cases hn
      exact (List.findIdx?_eq_some_iff_getElem.mp hm).1

/-- A plan that is read is proper, and its operations are those of the entries. -/
theorem proper_read {e : Entries} (h : ofEntries? e = some p) :
    p.Proper ∧ p.graph.nodes.map Graph.Node.data = e.ranked.map Prod.snd := by
  rw [ofEntries?_eq] at h
  obtain ⟨root, hroot, h⟩ := Option.bind_eq_some_iff.mp h
  obtain ⟨graph, hgraph, h⟩ := Option.bind_eq_some_iff.mp h
  cases h
  obtain ⟨hproper, hdata⟩ := addEntries_proper (proper_bare e.ranked) hgraph
  have hops : graph.nodes.map Graph.Node.data = e.ranked.map Prod.snd := by
    rw [hdata, bare, List.map_map]
    rfl
  refine ⟨⟨hproper, fun n hn => ?_⟩, hops⟩
  have hlength := congrArg List.length hops
  rw [List.length_map, List.length_map] at hlength
  rw [Graph.size, hlength]
  exact rootOf?_lt hroot hn

/-! ### Building -/

theorem Proper.addNode (h : p.Proper) (op : PlanNode) : (p.addNode op).Proper where
  graph := h.graph.addNode op
  root := by
    intro n hn
    have hsize : (p.addNode op).graph.size = p.graph.size + 1 := by
      simp [Plan.addNode, Graph.addNode, Graph.size]
    rw [hsize]
    unfold Plan.addNode at hn
    cases hroot : p.root with
    | none =>
        rw [hroot] at hn
        cases hn
        exact Nat.lt_succ_self _
    | some m =>
        rw [hroot] at hn
        cases hn
        exact Nat.lt_succ_of_lt (h.root m hroot)

/-- An edge that is not refused joins two operations, and the root may move. -/
theorem addEdge_eq_ok {p' : Plan} {source target : NodeId} (hadd : p.addEdge source target = .ok p') :
    target < p.graph.size ∧ source < p.graph.size ∧
      p' = ⟨p.graph.attach source [target], p.rootAfter source target⟩ := by
  unfold Plan.addEdge at hadd
  cases hg : p.graph.addEdge source target with
  | error d => rw [hg] at hadd; cases hadd
  | ok g =>
      rw [hg] at hadd
      cases hadd
      obtain ⟨ht, hs, rfl⟩ := Graph.addEdge_eq_ok.mp hg
      exact ⟨ht, hs, rfl⟩

theorem Proper.addEdge (h : p.Proper) {p' : Plan} {source target : NodeId}
    (hadd : p.addEdge source target = .ok p') : p'.Proper := by
  obtain ⟨ht, hs, rfl⟩ := addEdge_eq_ok hadd
  refine ⟨h.graph.attach hs (by simpa using ht), fun n hn => ?_⟩
  rw [Graph.size_attach]
  simp only [rootAfter] at hn
  split at hn
  · cases hn
    exact hs
  · exact h.root n hn

/-- An edge changes no operation. -/
theorem data_addEdge {p' : Plan} {source target : NodeId} (hadd : p.addEdge source target = .ok p') :
    p'.graph.nodes.map Graph.Node.data = p.graph.nodes.map Graph.Node.data := by
  obtain ⟨-, -, rfl⟩ := addEdge_eq_ok hadd
  exact Graph.data_attach source [target]

/-- **Every plan that can be had is proper.** -/
theorem Made.proper (h : Made p) : p.Proper := by
  induction h with
  | empty => exact ⟨.empty, fun n hn => by cases hn⟩
  | addNode _ op _ ih => exact ih.addNode op
  | addEdge _ _ _ hadd ih => exact ih.addEdge hadd
  | read _ hread => exact (proper_read hread).1

/-- **No operation of a plan that can be had holds a closing mark.** -/
theorem Made.rowsOnly (h : Made p) : ∀ op ∈ p.graph.nodes.map Graph.Node.data, op.RowsOnly := by
  induction h with
  | empty =>
      intro op hop
      cases hop
  | @addNode p _ op hop ih =>
      have hnodes : (p.addNode op).graph.nodes.map Graph.Node.data
          = p.graph.nodes.map Graph.Node.data ++ [op] := List.map_append
      rw [hnodes, List.forall_mem_append, List.forall_mem_singleton]
      exact ⟨ih, hop⟩
  | addEdge _ source target hadd ih =>
      rwa [data_addEdge hadd]
  | read hrows hread =>
      rw [(proper_read hread).2, List.forall_mem_map]
      intro node hnode
      exact hrows node ((List.mergeSort_perm _ _).subset hnode)

end Plan

end StreamQuery
