/-
What is left of the calls on a graph.

A graph keeps all that the calls on it have achieved and nothing of the calls that crashed.  Its
nodes are what was added, in that order and under the numbers that were answered; out of each node
lead the edges that were added there, in that order; and the count of the edges, which is kept
apart, is how many there are.

`Records` is that, for a graph and the history of the calls on it.  Every call keeps it: a node is
put behind the others, an edge behind the others out of its source, and a crash comes before
anything was changed.  The history has the first call first.
-/
import Mathlib
import StreamQuery.Graph.Call
import StreamQuery.Proofs.Plan.Made

namespace StreamQuery.Graph

/-! ### The steps of a call -/

namespace Work

variable {α β γ : Type}

theorem run_pure (b : β) (g : Graph α) : (pure b : Work α β).run g = (.ok b, g) := rfl

theorem run_throw (d : EdgeDefect) (g : Graph α) :
    (throw d : Work α β).run g = (.error d, g) := rfl

theorem run_get (g : Graph α) : (get : Work α (Graph α)).run g = (.ok g, g) := rfl

theorem run_set (g' g : Graph α) : (set g' : Work α PUnit).run g = (.ok (), g') := rfl

/-- Work goes on with the graph that the work before it left, unless that crashed. -/
theorem run_bind (w : Work α β) (f : β → Work α γ) (g : Graph α) :
    (w >>= f).run g = match w.run g with
      | (.ok b, g) => (f b).run g
      | (.error d, g) => (.error d, g) := by
  unfold run ExceptT.run StateT.run
  simp only [bind, ExceptT.bind, ExceptT.mk, StateT.bind, ExceptT.bindCont]
  cases w g with
  | mk result left => cases result <;> rfl

theorem run_requireTarget (target : NodeId) (g : Graph α) : (requireTarget target).run g =
    if target < g.size then (.ok (), g) else (.error (.noTarget target), g) := by
  unfold requireTarget
  simp only [run_bind, run_get]
  split
  · exact run_pure () g
  · exact run_throw _ g

theorem run_pushTarget (source target : NodeId) (g : Graph α) : (pushTarget source target).run g =
    if source < g.size then
      (.ok (), { g with
        nodes := g.nodes.modify source fun n => { n with targets := n.targets ++ [target] } })
    else (.error (.noSource source g.size), g) := by
  unfold pushTarget
  simp only [run_bind, run_get]
  split
  · exact run_set _ g
  · exact run_throw _ g

theorem run_countEdge (g : Graph α) :
    countEdge.run g = (.ok (), { g with edgeCount := g.edgeCount + 1 }) := rfl

/-- Adding an edge step by step changes nothing unless no step crashes. -/
theorem run_addEdge (source target : NodeId) (g : Graph α) : (addEdge source target).run g =
    match g.addEdge source target with
    | .ok g' => (.ok (), g')
    | .error d => (.error d, g) := by
  unfold addEdge Graph.addEdge
  simp only [run_bind, run_requireTarget]
  by_cases ht : target < g.size
  · by_cases hs : source < g.size
    · simp only [if_pos ht, if_pos hs, run_pushTarget, run_countEdge]
    · simp only [if_pos ht, if_neg hs, run_pushTarget]
  · simp only [if_neg ht]

end Work

variable {α : Type} {g g' : Graph α} {source target n : NodeId} {data : α} {d : EdgeDefect}

/-! ### One call -/

theorem perform_addNode (g : Graph α) (data : α) :
    g.perform (.addNode data) = (.node g.size, g.addNode data) := by
  have hplace : (g.addNode data).size - 1 = g.size := by simp [addNode, size]
  rw [← hplace]
  rfl

theorem perform_addEdge (g : Graph α) (source target : NodeId) :
    g.perform (.addEdge source target) = match g.addEdge source target with
      | .ok g' => (.linked, g')
      | .error d => (.crashed d, g) := by
  unfold perform Call.work
  simp only [Work.run_bind, Work.run_addEdge]
  cases g.addEdge source target with
  | ok g' => rfl
  | error d => rfl

/-- An edge crashes for want of its end or else of its beginning, and the graph stays as it was. -/
theorem perform_addEdge_eq_crashed :
    g.perform (.addEdge source target) = (.crashed d, g') ↔ g' = g ∧
      (¬ target < g.size ∧ d = .noTarget target ∨
        target < g.size ∧ ¬ source < g.size ∧ d = .noSource source g.size) := by
  rw [perform_addEdge]
  unfold addEdge
  by_cases ht : target < g.size
  · by_cases hs : source < g.size
    · simp [ht, hs]
    · simp [ht, hs, eq_comm, and_comm]
  · simp [ht, eq_comm, and_comm]

/-- An edge is added, or it crashes and leaves the graph as it was. -/
theorem perform_addEdge_cases {a : Answer} (h : g.perform (.addEdge source target) = (a, g')) :
    (a = .linked ∧ source < g.size ∧ target < g.size ∧ g' = g.attach source [target]) ∨
      ∃ d, a = .crashed d ∧ g' = g := by
  rw [perform_addEdge] at h
  cases hadd : g.addEdge source target with
  | ok after =>
      rw [hadd] at h
      cases h
      obtain ⟨ht, hs, rfl⟩ := addEdge_eq_ok.mp hadd
      exact .inl ⟨rfl, hs, ht, rfl⟩
  | error d =>
      rw [hadd] at h
      cases h
      exact .inr ⟨d, rfl, rfl⟩

/-! ### What is asked of a graph -/

theorem targets_of_size_le (h : g.size ≤ n) : g.targets n = [] := by
  unfold targets
  rw [List.getElem?_eq_none h]

/-- A new node has no edges, as if it were not there. -/
theorem targets_addNode (g : Graph α) (data : α) (n : NodeId) :
    (g.addNode data).targets n = g.targets n := by
  unfold targets addNode
  rcases Nat.lt_trichotomy n g.nodes.length with hn | rfl | hn
  · rw [List.getElem?_append_left hn]
  · simp
  · rw [List.getElem?_eq_none (by simpa using hn), List.getElem?_eq_none (Nat.le_of_lt hn)]

theorem targets_attach (hs : source < g.size) (ts : List NodeId) (n : NodeId) :
    (g.attach source ts).targets n = g.targets n ++ if source = n then ts else [] := by
  unfold targets attach
  rw [List.getElem?_modify]
  by_cases hn : source = n
  · subst hn
    rw [List.getElem?_eq_getElem hs]
    simp
  · cases g.nodes[n]? <;> simp [hn]

theorem data?_addNode_of_eq_some (h : g.data? n = some data) (new : α) :
    (g.addNode new).data? n = some data := by
  obtain ⟨node, hnode, hdata⟩ := Option.map_eq_some_iff.mp h
  unfold data? addNode
  rw [List.getElem?_append_left (List.getElem?_eq_some_iff.mp hnode).1, hnode, Option.map_some,
    hdata]

theorem data?_addNode_size (g : Graph α) (data : α) :
    (g.addNode data).data? g.size = some data := by
  simp [data?, addNode, size]

theorem data?_attach (g : Graph α) (source : NodeId) (ts : List NodeId) (n : NodeId) :
    (g.attach source ts).data? n = g.data? n := by
  unfold data? attach
  rw [List.getElem?_modify, Option.map_eq_map, Option.map_map]
  congr 1
  funext node
  by_cases hn : source = n <;> simp [hn]

/-- The edges of a graph are those of its first node, then those of its second, and so on. -/
theorem edges_eq_flatMap (g : Graph α) :
    g.edges = (List.range g.size).flatMap fun n => (g.targets n).map fun t => (n, t) := by
  unfold edges
  rw [List.flatMap_def, List.flatMap_def]
  congr 1
  refine List.ext_getElem? fun n => ?_
  rw [List.getElem?_map, List.getElem?_map, List.getElem?_zipIdx]
  unfold targets size
  cases hnode : g.nodes[n]? with
  | none =>
      rw [List.getElem?_eq_none (by simpa using List.getElem?_eq_none_iff.mp hnode)]
      rfl
  | some node =>
      have hn := (List.getElem?_eq_some_iff.mp hnode).1
      rw [List.getElem?_range hn]
      simp [hnode]

theorem length_edges (g : Graph α) :
    g.edges.length = total (g.nodes.map fun node => node.targets.length) := by
  have hlengths : (g.nodes.zipIdx.map fun p => (p.1.targets.map fun t => (p.2, t)).length)
      = (g.nodes.zipIdx.map Prod.fst).map fun node => node.targets.length := by
    rw [List.map_map]
    exact List.map_congr_left fun _ _ => List.length_map _
  rw [List.zipIdx_map_fst] at hlengths
  unfold edges total
  rw [List.length_flatMap, ← hlengths]
  rfl

/-! ### The history of the calls -/

/-- The numbers of nodes that were answered. -/
def numbers (history : List (Call α × Answer)) : List NodeId :=
  history.filterMap fun
    | (_, .node n) => some n
    | _ => none

/-- The edges that were added, each from a node to its target. -/
def linked (history : List (Call α × Answer)) : List (NodeId × NodeId) :=
  history.filterMap fun
    | (.addEdge source target, .linked) => some (source, target)
    | _ => none

/-- What a graph is after the calls of a history. -/
structure Records (history : List (Call α × Answer)) (g : Graph α) : Prop where
  proper : g.Proper
  /-- Every node was answered a number, and its data is found under that number. -/
  kept : ∀ data a, (.addNode data, a) ∈ history → ∃ n, a = .node n ∧ g.data? n = some data
  numbers : numbers history = List.range g.size
  targets : ∀ n, g.targets n = ((linked history).filter fun e => e.1 = n).map Prod.snd
  counted : g.edgeCount = (linked history).length

variable {history : List (Call α × Answer)}

theorem records_empty : Records [] (empty : Graph α) where
  proper := .empty
  kept := nofun
  numbers := rfl
  targets := by
    intro n
    exact targets_of_size_le (Nat.zero_le n)
  counted := rfl

theorem Records.addNode (h : Records history g) (data : α) :
    Records (history ++ [(.addNode data, .node g.size)]) (g.addNode data) where
  proper := h.proper.addNode data
  kept := by
    intro other a hmem
    rcases List.mem_append.mp hmem with hbefore | hnow
    · obtain ⟨n, ha, hdata⟩ := h.kept other a hbefore
      exact ⟨n, ha, data?_addNode_of_eq_some hdata data⟩
    · cases List.mem_singleton.mp hnow
      exact ⟨g.size, rfl, data?_addNode_size g data⟩
  numbers := by
    have hsize : (g.addNode data).size = g.size + 1 := by simp [Graph.addNode, size]
    rw [hsize, List.range_succ, ← h.numbers]
    simp [Graph.numbers]
  targets := by
    intro n
    rw [targets_addNode, h.targets]
    simp [linked]
  counted := by
    have hcount : (g.addNode data).edgeCount = g.edgeCount := rfl
    rw [hcount, h.counted]
    simp [linked]

theorem Records.attach (h : Records history g) (hsource : source < g.size)
    (htarget : target < g.size) :
    Records (history ++ [(.addEdge source target, .linked)]) (g.attach source [target]) where
  proper := h.proper.attach hsource (by simpa using htarget)
  kept := by
    intro data a hmem
    rcases List.mem_append.mp hmem with hbefore | hnow
    · obtain ⟨n, ha, hdata⟩ := h.kept data a hbefore
      exact ⟨n, ha, by rw [data?_attach, hdata]⟩
    · cases List.mem_singleton.mp hnow
  numbers := by
    rw [size_attach, ← h.numbers]
    simp [Graph.numbers]
  targets := by
    intro n
    rw [targets_attach hsource, h.targets]
    by_cases hn : source = n <;> simp [linked, hn]
  counted := by
    unfold Graph.attach
    rw [h.counted]
    simp [linked]

/-- A call that crashed leaves no trace. -/
theorem Records.crash (h : Records history g) (source target : NodeId) (d : EdgeDefect) :
    Records (history ++ [(.addEdge source target, .crashed d)]) g where
  proper := h.proper
  kept := by
    intro data a hmem
    rcases List.mem_append.mp hmem with hbefore | hnow
    · exact h.kept data a hbefore
    · cases List.mem_singleton.mp hnow
  numbers := by
    rw [← h.numbers]
    simp [Graph.numbers]
  targets := by
    intro n
    rw [h.targets]
    simp [linked]
  counted := by
    rw [h.counted]
    simp [linked]

theorem Records.perform (h : Records history g) {c : Call α} {a : Answer}
    (hcall : g.perform c = (a, g')) : Records (history ++ [(c, a)]) g' := by
  cases c with
  | addNode data =>
      rw [perform_addNode] at hcall
      cases hcall
      exact h.addNode data
  | addEdge source target =>
      obtain ⟨rfl, hsource, htarget, rfl⟩ | ⟨d, rfl, rfl⟩ := perform_addEdge_cases hcall
      · exact h.attach hsource htarget
      · exact h.crash source target d

theorem Records.performAll : ∀ (cs : List (Call α)) {history : List (Call α × Answer)}
    {g : Graph α}, Records history g →
      Records (history ++ (g.performAll cs).1) (g.performAll cs).2 := by
  intro cs
  induction cs with
  | nil =>
      intro history g h
      rwa [Graph.performAll, List.append_nil]
  | cons c cs ih =>
      intro history g h
      have hrest := ih (h.perform (c := c) rfl)
      rwa [List.append_assoc, List.singleton_append] at hrest

theorem records_performAll (cs : List (Call α)) :
    Records (empty.performAll cs).1 (empty.performAll cs).2 :=
  records_empty.performAll cs

/-- The edges are those that were added, put in the order of their sources. -/
theorem Records.edges (h : Records history g) :
    g.edges = (List.range g.size).flatMap fun n => (linked history).filter fun e => e.1 = n := by
  rw [edges_eq_flatMap]
  congr 1
  funext n
  rw [h.targets, List.map_map]
  conv_rhs => rw [← List.map_id ((linked history).filter _)]
  refine List.map_congr_left fun e he => ?_
  have hsource : e.1 = n := by simpa using (List.mem_filter.mp he).2
  rw [← hsource]
  rfl

theorem Records.edgeCount (h : Records history g) : g.edgeCount = g.edges.length := by
  rw [length_edges]
  exact h.proper.counted

theorem calls_performAll : ∀ (cs : List (Call α)) (g : Graph α),
    (g.performAll cs).1.map Prod.fst = cs
  | [], _ => rfl
  | c :: cs, g => congrArg (c :: ·) (calls_performAll cs (g.perform c).2)

/-- **A graph shows what the calls on it have achieved**, whatever calls were made and however many
of them crashed.  The nodes have the numbers from 0 on in the order in which they were added, and a
number that was once answered leads to the same data ever after.  Every edge ends in a node, the
edges out of a node are those that were added there, in order, and the count of the edges is the
sum over all nodes and the length of their list, in which the edges of one node stand together and
in order.  And an edge that crashes, because it has no end or no beginning, changes nothing. -/
theorem keeps_what_was_added (calls : List (Call α)) :
    let history := (empty.performAll calls).1
    let g := (empty.performAll calls).2
    history.map Prod.fst = calls ∧
    (∀ data a, (.addNode data, a) ∈ history → ∃ n, a = .node n ∧ g.data? n = some data) ∧
    numbers history = List.range g.size ∧
    (∀ node ∈ g.nodes, ∀ target ∈ node.targets, target < g.size) ∧
    (∀ n, g.targets n = ((linked history).filter fun e => e.1 = n).map Prod.snd) ∧
    (∀ n, g.size ≤ n → g.targets n = []) ∧
    g.edgeCount = (linked history).length ∧
    g.edgeCount = total (g.nodes.map fun node => node.targets.length) ∧
    g.edgeCount = g.edges.length ∧
    g.edges = ((List.range g.size).flatMap fun n => (linked history).filter fun e => e.1 = n) ∧
    (∀ source target d g', g.perform (.addEdge source target) = (.crashed d, g') ↔ g' = g ∧
      (¬ target < g.size ∧ d = .noTarget target ∨
        target < g.size ∧ ¬ source < g.size ∧ d = .noSource source g.size)) := by
  intro history g
  have h : Records history g := records_performAll calls
  exact ⟨calls_performAll calls empty, h.kept, h.numbers, h.proper.ends, h.targets,
    fun _ => targets_of_size_le, h.counted, h.proper.counted, h.edgeCount, h.edges,
    fun _ _ _ _ => perform_addEdge_eq_crashed⟩

/-- Edges from a node to itself are kept as often as they are added; the first edge and the last
are added where there is no node. -/
example :
    let g := (empty.performAll [.addEdge 0 0, .addNode 'a', .addEdge 0 0, .addNode 'b',
      .addEdge 1 0, .addEdge 0 1, .addEdge 0 0, .addEdge 2 0]).2
    g.edges = [(0, 0), (0, 1), (0, 0), (1, 0)] ∧ g.edgeCount = 4 ∧ g.data? 1 = some 'b' := by
  decide

end StreamQuery.Graph
