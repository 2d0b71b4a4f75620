/-
A plan comes back from its text.

In the text the operations stand under their numbers as keys, in the order of the bytes of
the keys, so operation 10 stands before operation 2.  The reader ranks the keys by the
numbers they read as, and since these differ there is only one order of the operations to
come out at, however the entries are traversed.

The inputs of an operation stand together in one entry, in order.  Entries of different
operations touch different nodes, so their order does not matter either: what an operation
gets is what its own entry says.
-/
import Mathlib.Data.List.Nodup
import StreamQuery.CommandLine.Run
import StreamQuery.Proofs.Json.Decode
import StreamQuery.Proofs.Plan.Made

namespace StreamQuery

namespace Plan

variable {p : Plan}

/-! ### Keys -/

/-- Different operations have different keys. -/
theorem key_injective : Function.Injective key := by
  intro m n h
  have hnumber := congrArg (fun k : String => Nat.ofDigitChars 10 k.toList 0) h
  simpa [key, Text.decimal, Nat.ofDigitChars_ten_toDigits] using hnumber

/-- A key ranks by the number of its operation. -/
theorem rank_key {n : NodeId} (h : n < UInt64.size) : rank (key n) = n := by
  have hread : Text.readUnsigned (Text.decimal n) = some (UInt64.ofNat n) := by
    have hdigits : Text.readDigits (Text.decimal n) = some n := by
      have hall : (Text.decimal n).all Char.isDigit = true :=
        List.all_eq_true.mpr fun _ => Json.isDigit_of_mem_decimal
      have hne : (Text.decimal n).isEmpty = false := by
        simp [Text.decimal]
      unfold Text.readDigits
      rw [hall, hne, Text.decimal, Nat.ofDigitChars_ten_toDigits]
      rfl
    unfold Text.readUnsigned
    split
    · rename_i cs hsign
      have hplus : '+'.isDigit = true :=
        Json.isDigit_of_mem_decimal (n := n) (by rw [hsign]; exact List.mem_cons_self)
      cases hplus
    · rw [hdigits]
      exact if_pos h
  unfold rank key
  rw [String.toList_ofList, hread]
  exact UInt64.toNat_ofNat_of_lt h

/-! ### The entries of a plan -/

/-- The operations that have inputs, each with its inputs. -/
def links (p : Plan) : List (NodeId × List NodeId) :=
  (p.graph.nodes.zipIdx.filter fun n => !n.1.targets.isEmpty).map fun n => (n.2, n.1.targets)

/-- An entry of inputs, by keys. -/
def entry (link : NodeId × List NodeId) : String × List String :=
  (key link.1, link.2.map key)

/-- The entries of a plan in the order of its operations. -/
def entries (p : Plan) : Entries where
  nodes := p.graph.nodes.zipIdx.map fun n => (key n.2, n.1.data)
  edges := p.links.map entry
  root := p.root.map key

/-- The same entries in any order. -/
structure Entries.Reorders (e e' : Entries) : Prop where
  nodes : e.nodes.Perm e'.nodes
  edges : e.edges.Perm e'.edges
  root : e.root = e'.root

theorem Entries.Reorders.refl (e : Entries) : e.Reorders e :=
  ⟨.refl _, .refl _, rfl⟩

theorem Entries.Reorders.trans {e e' e'' : Entries} (h : e.Reorders e') (h' : e'.Reorders e'') :
    e.Reorders e'' :=
  ⟨h.nodes.trans h'.nodes, h.edges.trans h'.edges, h.root.trans h'.root⟩

theorem getElem?_entries_nodes (i : Nat) :
    p.entries.nodes[i]? = p.graph.nodes[i]?.map fun node => (key i, node.data) := by
  unfold entries
  rw [List.getElem?_map, List.getElem?_zipIdx, Option.map_map, Nat.zero_add]
  rfl

theorem length_entries_nodes : p.entries.nodes.length = p.graph.size := by
  simp [entries, Graph.size]

theorem getElem?_of_mem_links {link : NodeId × List NodeId} (h : link ∈ p.links) :
    ∃ node, p.graph.nodes[link.1]? = some node ∧ node.targets = link.2 ∧ node.targets ≠ [] := by
  obtain ⟨⟨node, i⟩, hmem, rfl⟩ := List.mem_map.mp h
  obtain ⟨hnumbered, hinputs⟩ := List.mem_filter.mp hmem
  exact ⟨node, List.mem_zipIdx_iff_getElem?.mp hnumbered, rfl, by simpa using hinputs⟩

theorem mem_links {i : NodeId} {node : Graph.Node PlanNode} (h : p.graph.nodes[i]? = some node)
    (hinputs : node.targets ≠ []) : (i, node.targets) ∈ p.links := by
  refine List.mem_map.mpr ⟨(node, i), List.mem_filter.mpr
    ⟨List.mem_zipIdx_iff_getElem?.mpr h, ?_⟩, rfl⟩
  simpa using hinputs

theorem nodup_numbers : (p.graph.nodes.zipIdx.map Prod.snd).Nodup := by
  rw [List.zipIdx_map_snd]
  exact List.nodup_range'

/-- An operation without inputs counts for nothing. -/
theorem total_links : total (p.links.map fun link => link.2.length)
    = total (p.graph.nodes.map fun node => node.targets.length) := by
  have hfrom : ∀ (nodes : List (Graph.Node PlanNode)) (k : Nat),
      total (((nodes.zipIdx k).filter fun n => !n.1.targets.isEmpty).map fun n =>
        n.1.targets.length) = total (nodes.map fun node => node.targets.length) := by
    intro nodes
    induction nodes with
    | nil => intro k; rfl
    | cons node nodes ih =>
        intro k
        rw [List.zipIdx_cons, List.filter_cons, List.map_cons, total_cons, ← ih (k + 1)]
        by_cases hinputs : node.targets = []
        · simp [hinputs]
        · simp [hinputs, total_cons]
  unfold links
  rw [List.map_map]
  exact hfrom p.graph.nodes 0

/-- No operation has two entries. -/
theorem nodup_links : (p.links.map Prod.fst).Nodup := by
  have hsub : (p.links.map Prod.fst).Sublist (p.graph.nodes.zipIdx.map Prod.snd) := by
    unfold links
    rw [List.map_map]
    exact List.filter_sublist.map _
  exact nodup_numbers.sublist hsub

theorem nodup_node_keys : (p.entries.nodes.map Prod.fst).Nodup := by
  have hkeys := nodup_numbers.map key_injective (l := p.graph.nodes.zipIdx.map Prod.snd)
  unfold entries
  rw [List.map_map] at hkeys ⊢
  exact hkeys

theorem nodup_edge_keys : (p.entries.edges.map Prod.fst).Nodup := by
  have hkeys := nodup_links.map key_injective (l := p.links.map Prod.fst)
  unfold entries
  rw [List.map_map] at hkeys ⊢
  exact hkeys

/-! ### Writing and decoding entries -/

/-- An operation under its key. -/
def nodeMember (m : String × PlanNode) : String × Json :=
  (m.1, Json.ofPlanNode m.2)

/-- The inputs of an operation under its key. -/
def edgeMember (m : String × List String) : String × Json :=
  (m.1, .arr (m.2.map .str))

/-- The JSON of entries. -/
def Entries.toJson (e : Entries) : Json :=
  .obj [("edges", .object (e.edges.map edgeMember)), ("nodes", .object (e.nodes.map nodeMember)),
    ("root", match e.root with
      | some key => .str key
      | none => .null)]

/-- A plan is written as its entries are. -/
theorem toJson_eq (p : Plan) : p.toJson = p.entries.toJson := by
  unfold toJson Entries.toJson entries links
  simp only [List.map_map]
  cases p.root <;> simp [edgeMember, nodeMember, entry, Function.comp_def]

/-- Entries without a closing mark among the rows are decoded, in some order. -/
theorem entries?_toJson {e : Entries} (hrows : ∀ node ∈ e.nodes, node.2.RowsOnly) :
    ∃ e', entries? e.toJson = some e' ∧ e'.Reorders e := by
  obtain ⟨nodes, hnodes, hnodesPerm⟩ := Json.mapM_sortMembers
    (fun m => (Json.toPlanNode? m.2).map (m.1, ·)) nodeMember e.nodes fun m hm => by
      simp [nodeMember, Json.toPlanNode?_ofPlanNode (hrows m hm)]
  obtain ⟨edges, hedges, hedgesPerm⟩ := Json.mapM_sortMembers
    (fun m => (Json.toList? Json.toText? m.2).map (m.1, ·)) edgeMember e.edges fun m _ => by
      have htexts : Json.toList? Json.toText? (.arr (m.2.map .str)) = some m.2 :=
        Json.toList?_map fun _ _ => rfl
      simp [edgeMember, htexts]
  refine ⟨⟨nodes, edges, e.root⟩, ?_, hnodesPerm, hedgesPerm, rfl⟩
  have hedgesMember : e.toJson.member? "edges" = some (.object (e.edges.map edgeMember)) := rfl
  have hnodesMember : e.toJson.member? "nodes" = some (.object (e.nodes.map nodeMember)) := rfl
  unfold entries?
  rw [hedgesMember, hnodesMember]
  simp only [Option.bind_eq_bind, Option.bind_some, Json.object, Json.toMembers?, hnodes, hedges]
  cases hroot : e.root <;> simp [Entries.toJson, Json.member?, List.findRev?, hroot]

/-- Entries are printed as they are. -/
theorem Entries.written_toJson {e : Entries} (hnodes : (e.nodes.map Prod.fst).Nodup)
    (hedges : (e.edges.map Prod.fst).Nodup) : e.toJson.Written := by
  have hnodesWritten : (Json.object (e.nodes.map nodeMember)).Written := by
    refine Json.written_object (by rw [List.map_map]; exact hnodes) ?_
    rw [List.forall_mem_map]
    exact fun m _ => Json.written_ofPlanNode m.2
  have hedgesWritten : (Json.object (e.edges.map edgeMember)).Written := by
    refine Json.written_object (by rw [List.map_map]; exact hedges) ?_
    rw [List.forall_mem_map]
    intro m _
    simp [edgeMember, Json.Written, Json.allWritten_iff]
  unfold Entries.toJson
  cases e.root <;>
    simp [Json.Written, Json.MembersWritten, hnodesWritten, hedgesWritten]

/-! ### Reading -/

/-- The operations come out in the order of their numbers. -/
theorem ranked_of_reorders {e : Entries} (h : e.Reorders p.entries)
    (hsize : p.graph.size ≤ UInt64.size) : e.ranked = p.entries.nodes := by
  have hrank : ∀ {i : Nat} {m : String × PlanNode}, p.entries.nodes[i]? = some m →
      rank m.1 = i := by
    intro i m hm
    rw [getElem?_entries_nodes] at hm
    obtain ⟨node, hnode, rfl⟩ := Option.map_eq_some_iff.mp hm
    have hi : i < p.graph.size := (List.getElem?_eq_some_iff.mp hnode).1
    exact rank_key (Nat.lt_of_lt_of_le hi hsize)
  have hperm : e.ranked.Perm p.entries.nodes := (List.mergeSort_perm _ _).trans h.nodes
  have hsorted : e.ranked.Pairwise fun a b => decide (rank a.1 ≤ rank b.1) = true :=
    List.pairwise_mergeSort
      (fun a b c hab hbc => by simp only [decide_eq_true_eq] at *; omega)
      (fun a b => by simp only [Bool.or_eq_true, decide_eq_true_eq]; omega) e.nodes
  have hnumbered : p.entries.nodes.Pairwise fun a b => decide (rank a.1 ≤ rank b.1) = true := by
    rw [List.pairwise_iff_getElem]
    intro i j hi hj hij
    rw [decide_eq_true_eq, hrank (List.getElem?_eq_getElem hi), hrank (List.getElem?_eq_getElem hj)]
    exact Nat.le_of_lt hij
  refine hperm.eq_of_pairwise ?_ hsorted hnumbered
  intro a b ha hb hab hba
  obtain ⟨i, hi⟩ := List.mem_iff_getElem?.mp (hperm.subset ha)
  obtain ⟨j, hj⟩ := List.mem_iff_getElem?.mp hb
  rw [decide_eq_true_eq] at hab hba
  have hij : i = j := by
    rw [← hrank hi, ← hrank hj]
    exact Nat.le_antisymm hab hba
  rw [hij, hj] at hi
  exact (Option.some.inj hi).symm

theorem numberOf?_key {i : NodeId} (hi : i < p.graph.size) :
    numberOf? p.entries.nodes (key i) = some i := by
  have hkey : ∀ (j : Nat) (hj : j < p.entries.nodes.length), (p.entries.nodes[j]).1 = key j := by
    intro j hj
    simp [entries]
  refine List.findIdx?_eq_some_iff_getElem.mpr ⟨by rwa [length_entries_nodes], ?_, ?_⟩
  · rw [hkey, beq_self_eq_true]
  · intro j hj
    rw [hkey, beq_iff_eq]
    exact fun heq => absurd (key_injective heq) (Nat.ne_of_lt hj)

theorem addInputs_key {source : NodeId} (hsource : source < p.graph.size) :
    ∀ {targets : List NodeId} {g : Graph PlanNode}, g.size = p.graph.size →
      (∀ target ∈ targets, target < p.graph.size) →
      addInputs p.entries.nodes (key source) g (targets.map key)
        = some (g.attach source targets) := by
  intro targets
  induction targets with
  | nil =>
      intro g _ _
      rw [Graph.attach_nil]
      rfl
  | cons target targets ih =>
      intro g hg htargets
      rw [List.forall_mem_cons] at htargets
      have hadd : g.addEdge source target = .ok (g.attach source [target]) :=
        Graph.addEdge_eq_ok.mpr ⟨by rw [hg]; exact htargets.1, by rw [hg]; exact hsource, rfl⟩
      rw [List.map_cons, addInputs, numberOf?_key hsource, numberOf?_key htargets.1]
      simp only [Option.bind_eq_bind, Option.bind_some, hadd]
      rw [ih (by rw [Graph.size_attach, hg]) htargets.2, Graph.attach_attach,
        List.singleton_append]

theorem foldlM_addEntry : ∀ {links : List (NodeId × List NodeId)} {g : Graph PlanNode},
    g.size = p.graph.size →
    (∀ link ∈ links, link.1 < p.graph.size ∧ ∀ target ∈ link.2, target < p.graph.size) →
      (links.map entry).foldlM (addEntry p.entries.nodes) g = some (g.attachAll links) := by
  intro links
  induction links with
  | nil => intro g _ _; rfl
  | cons link links ih =>
      intro g hg hlinks
      rw [List.forall_mem_cons] at hlinks
      obtain ⟨⟨hsource, htargets⟩, hrest⟩ := hlinks
      have hentry : addEntry p.entries.nodes g (entry link) = some (g.attach link.1 link.2) := by
        unfold addEntry entry
        rw [numberOf?_key hsource]
        exact addInputs_key hsource hg htargets
      rw [List.map_cons, List.foldlM_cons, hentry, Option.bind_eq_bind, Option.bind_some,
        ih (by rw [Graph.size_attach, hg]) hrest]
      rfl

theorem given_links {links : List (NodeId × List NodeId)} (hperm : links.Perm p.links)
    {i : NodeId} {node : Graph.Node PlanNode} (hnode : p.graph.nodes[i]? = some node) :
    Graph.given links i = node.targets := by
  by_cases hinputs : node.targets = []
  · rw [hinputs]
    refine Graph.given_eq_nil fun link hlink hlinkAt => ?_
    obtain ⟨other, hother, -, hne⟩ := getElem?_of_mem_links (hperm.subset hlink)
    rw [hlinkAt, hnode] at hother
    cases hother
    exact hne hinputs
  · exact Graph.given_of_mem ((hperm.map Prod.fst).nodup_iff.mpr nodup_links)
      (hperm.symm.subset (mem_links hnode hinputs))

/-- The bare operations with the inputs of all entries make the graph. -/
theorem attachAll_links (h : p.graph.Proper) {links : List (NodeId × List NodeId)}
    (hperm : links.Perm p.links) : (bare p.entries.nodes).attachAll links = p.graph := by
  have hnodes : ((bare p.entries.nodes).attachAll links).nodes = p.graph.nodes := by
    refine List.ext_getElem? fun i => ?_
    rw [Graph.getElem?_attachAll, bare, List.getElem?_map, getElem?_entries_nodes]
    cases hnode : p.graph.nodes[i]? with
    | none => rfl
    | some node =>
        simp only [Option.map_some, List.nil_append, given_links hperm hnode]
  have hcount : ((bare p.entries.nodes).attachAll links).edgeCount = p.graph.edgeCount := by
    rw [Graph.edgeCount_attachAll, bare, Nat.zero_add, total_perm (hperm.map _), total_links,
      h.counted]
  exact congr (congrArg Graph.mk hnodes) hcount

/-- A plan is read from its entries in any order. -/
theorem ofEntries?_of_reorders (h : p.Proper) (hsize : p.graph.size ≤ UInt64.size) {e : Entries}
    (he : e.Reorders p.entries) : ofEntries? e = some p := by
  obtain ⟨links, hedges, hperm⟩ := Json.exists_of_perm_map he.edges
  have hroot : rootOf? p.entries.nodes e.root = some p.root := by
    rw [he.root]
    unfold entries rootOf?
    cases hp : p.root with
    | none => rfl
    | some n => exact congrArg (Option.map some) (numberOf?_key (h.root n hp))
  have hends : ∀ link ∈ links,
      link.1 < p.graph.size ∧ ∀ target ∈ link.2, target < p.graph.size := by
    intro link hlink
    obtain ⟨node, hnode, htargets, -⟩ := getElem?_of_mem_links (hperm.subset hlink)
    refine ⟨(List.getElem?_eq_some_iff.mp hnode).1, fun target htarget => ?_⟩
    rw [← htargets] at htarget
    exact h.graph.ends node (List.mem_of_getElem? hnode) target htarget
  have hbare : (bare p.entries.nodes).size = p.graph.size := by
    simp [bare, Graph.size, entries]
  rw [ofEntries?_eq, ranked_of_reorders he hsize, hroot, hedges]
  simp only [Option.bind_eq_bind, Option.bind_some, foldlM_addEntry hbare hends,
    attachAll_links h.graph hperm]

/-! ### The text -/

/-- A plan nests two levels deeper than its deepest entry. -/
theorem depth_toJson (p : Plan) : p.toJson.depth =
    max (Json.depthMembers (p.entries.edges.map edgeMember))
      (Json.depthMembers (p.entries.nodes.map nodeMember)) + 2 := by
  have hroot : (match p.entries.root with
      | some key => Json.str key
      | none => .null).depth = 0 := by
    split <;> rfl
  rw [toJson_eq, Entries.toJson, Json.depth, Json.depthMembers, Json.depthMembers,
    Json.depthMembers, Json.depthMembers, Json.depth_object, Json.depth_object, hroot]
  omega

/-- **A plan comes back from its text as it was**, if the text nests no deeper than the reader goes;
beyond that the text is refused.  Operations are numbered by machine words.  The last clause says
that the order in which the reader comes across the entries makes no difference. -/
theorem text_round_trip (h : Made p) (hsize : p.graph.size ≤ UInt64.size) :
    (CommandLine.readPlan p.toJson.chars).mapError Failure.detail
        = (if p.toJson.depth ≤ 127 then .ok p else .error "Malformatted logical plan json") ∧
      ∃ e, entries? p.toJson = some e ∧ ∀ e', e'.Reorders e → ofEntries? e' = some p := by
  have hrows : ∀ node ∈ p.entries.nodes, node.2.RowsOnly := by
    rw [entries, List.forall_mem_map]
    intro node hnode
    exact h.rowsOnly _ (List.mem_map_of_mem (List.fst_mem_of_mem_zipIdx hnode))
  obtain ⟨e, hdecode, he⟩ := entries?_toJson hrows
  rw [← toJson_eq] at hdecode
  have hread : ∀ e', e'.Reorders e → ofEntries? e' = some p := fun e' he' =>
    ofEntries?_of_reorders h.proper hsize (he'.trans he)
  have hwritten : p.toJson.Written := by
    rw [toJson_eq]
    exact Entries.written_toJson nodup_node_keys nodup_edge_keys
  have hparse : Json.parse p.toJson.chars = if p.toJson.depth ≤ 127 then some p.toJson else none :=
    Json.parse_chars hwritten
  refine ⟨?_, e, hdecode, hread⟩
  unfold CommandLine.readPlan ofText?
  rw [hparse]
  by_cases hdepth : p.toJson.depth ≤ 127
  · rw [if_pos hdepth, if_pos hdepth]
    simp only [Option.bind_eq_bind, Option.bind_some, hdecode, hread e (.refl e)]
    rfl
  · rw [if_neg hdepth, if_neg hdepth]
    rfl

/-- A join of two tables on its way through its text. -/
theorem text_round_trip_of_join :
    ∃ p : Plan, p = ⟨⟨[⟨.scan "left", []⟩, ⟨.scan "right", []⟩,
        ⟨.join (.call .equals [.inputRef 0, .inputRef 1]), [0, 1]⟩], 2⟩, some 2⟩ ∧
      Made p ∧ p.graph.size ≤ UInt64.size ∧ p.toJson.depth ≤ 127 ∧
      (CommandLine.readPlan p.toJson.chars).mapError Failure.detail = .ok p := by
  obtain ⟨p, hp⟩ : ∃ p : Plan, p = ⟨⟨[⟨.scan "left", []⟩, ⟨.scan "right", []⟩,
      ⟨.join (.call .equals [.inputRef 0, .inputRef 1]), [0, 1]⟩], 2⟩, some 2⟩ := ⟨_, rfl⟩
  have hmade : Made p := by
    have hscans := (Made.empty.addNode (.scan "left") trivial).addNode (.scan "right") trivial
    have hnodes := hscans.addNode (.join (.call .equals [.inputRef 0, .inputRef 1])) trivial
    have hleft := hnodes.addEdge 2 0 rfl
    have hright := hleft.addEdge 2 1 rfl
    rw [hp]
    exact hright
  have hsize : p.graph.size ≤ UInt64.size := by
    rw [hp]
    decide
  have hdepth : p.toJson.depth ≤ 127 := by
    rw [hp, depth_toJson]
    decide
  have hround := (text_round_trip hmade hsize).1
  rw [if_pos hdepth] at hround
  exact ⟨p, hp, hmade, hsize, hdepth, hround⟩

/-- Sixty-three accesses to fields, one inside the other, are too deep to be read. -/
example : 127 < ((Plan.empty.addNode
    (.filter (Nat.repeat (Expr.field · "f") 63 (.inputRef 0)))).toJson).depth := by
  decide +kernel

end Plan

end StreamQuery
