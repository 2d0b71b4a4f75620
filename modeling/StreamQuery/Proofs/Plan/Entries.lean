/-
The plan that entries make.

Entries name operations by keys, and reading looks every key up.  By the time an edge is
added both its ends were found, so a key that is not that of an operation is the only thing
that can go wrong: `Entries.construct` keeps a refused edge apart from an unknown key, and
no edge is refused.  What is left is `Entries.Closed`, and then the plan is `Entries.plan`.

`Plan.Numbers` says what that plan is in terms of keys.  It does not say how operations of
one rank are numbered: that is up to the order in which the entries are come across.
-/
import Mathlib.Data.Set.Function
import Mathlib.Data.List.Nodup
import StreamQuery.Proofs.Lookup
import StreamQuery.Proofs.Plan.Made

namespace StreamQuery.Plan

namespace Entries

/-! ### What entries say of a key -/

/-- The keys of the operations. -/
def keys (e : Entries) : List String :=
  e.nodes.map Prod.fst

/-- The keys of the inputs of an operation, in order. -/
def targets (e : Entries) (key : String) : List String :=
  (e.edges.lookup key).getD []

/-- The number of the operation of a key. -/
def number (e : Entries) (key : String) : NodeId :=
  e.ranked.findIdx fun n => n.1 == key

/-- The numbers of the inputs that an entry gives to an operation. -/
def link (e : Entries) (edge : String × List String) : NodeId × List NodeId :=
  (e.number edge.1, edge.2.map e.number)

/-- The plan of entries that name no other keys than those of operations. -/
def plan (e : Entries) : Plan where
  graph := (bare e.ranked).attachAll (e.edges.map e.link)
  root := e.root.map e.number

/-- Every key that is named is that of an operation. -/
structure Closed (e : Entries) : Prop where
  root : ∀ key, e.root = some key → key ∈ e.keys
  sources : ∀ edge ∈ e.edges, edge.1 ∈ e.keys
  targets : ∀ edge ∈ e.edges, ∀ key ∈ edge.2, key ∈ e.keys

/-- Entries as they stand in a map: no key comes twice. -/
structure Distinct (e : Entries) : Prop where
  nodes : e.keys.Nodup
  edges : (e.edges.map Prod.fst).Nodup

variable {e : Entries} {key : String} {source : String} {g : Graph PlanNode}

theorem ranked_perm (e : Entries) : e.ranked.Perm e.nodes :=
  List.mergeSort_perm _ _

theorem length_ranked (e : Entries) : e.ranked.length = e.nodes.length :=
  e.ranked_perm.length_eq

theorem pairwise_ranked (e : Entries) :
    e.ranked.Pairwise fun a b => rank a.1 ≤ rank b.1 := by
  have hsorted : e.ranked.Pairwise fun a b => decide (rank a.1 ≤ rank b.1) = true :=
    List.pairwise_mergeSort
      (fun a b c hab hbc => by simp only [decide_eq_true_eq] at *; omega)
      (fun a b => by simp only [Bool.or_eq_true, decide_eq_true_eq]; omega) e.nodes
  exact hsorted.imp fun h => of_decide_eq_true h

/-- No operation has an unknown key among its inputs. -/
theorem Closed.mem_keys_of_target (he : e.Closed) {target : String} (h : target ∈ e.targets key) :
    target ∈ e.keys := by
  unfold Entries.targets at h
  cases hfound : e.edges.lookup key with
  | none =>
      rw [hfound] at h
      cases h
  | some names =>
      rw [hfound] at h
      exact he.targets _ (Lookup.mem hfound) target h

theorem mem_keys : key ∈ e.keys ↔ ∃ n ∈ e.ranked, n.1 = key := by
  rw [keys, List.mem_map]
  exact exists_congr fun n => and_congr_left fun _ => e.ranked_perm.mem_iff.symm

theorem number_lt_iff : e.number key < e.ranked.length ↔ key ∈ e.keys := by
  unfold number
  rw [List.findIdx_lt_length, mem_keys]
  simp only [beq_iff_eq]

/-- A key is looked up with success if it is that of an operation. -/
theorem numberOf?_of_mem (h : key ∈ e.keys) : numberOf? e.ranked key = some (e.number key) := by
  unfold numberOf?
  rw [List.findIdx?_eq_guard_findIdx_lt]
  exact if_pos (decide_eq_true (number_lt_iff.mpr h))

theorem numberOf?_of_not_mem (h : key ∉ e.keys) : numberOf? e.ranked key = none := by
  refine List.findIdx?_eq_none_iff.mpr fun n hn => ?_
  rw [beq_eq_false_iff_ne]
  exact fun heq => h (mem_keys.mpr ⟨n, hn, heq⟩)

/-! ### Reading with its obstacles kept apart -/

/-- Why entries make no plan. -/
inductive Obstacle where
  /-- A key is named that is not that of an operation. -/
  | unknownKey
  /-- The graph does not take an edge. -/
  | refused (d : EdgeDefect)

/-- Adds the inputs of one node, given by their keys. -/
def joinInputs (nodes : List (String × PlanNode)) (source : String) :
    Graph PlanNode → List String → Except Obstacle (Graph PlanNode)
  | g, [] => .ok g
  | g, target :: rest =>
    match numberOf? nodes source, numberOf? nodes target with
    | some s, some t =>
      match g.addEdge s t with
      | .ok g => joinInputs nodes source g rest
      | .error d => .error (.refused d)
    | _, _ => .error .unknownKey

/-- Adds the inputs of one entry. -/
def joinEntry (nodes : List (String × PlanNode)) (g : Graph PlanNode)
    (edge : String × List String) : Except Obstacle (Graph PlanNode) :=
  match numberOf? nodes edge.1 with
  | some _ => joinInputs nodes edge.1 g edge.2
  | none => .error .unknownKey

/-- Looks up the root. -/
def findRoot (nodes : List (String × PlanNode)) : Option String → Except Obstacle (Option NodeId)
  | none => .ok none
  | some key =>
    match numberOf? nodes key with
    | some n => .ok (some n)
    | none => .error .unknownKey

/-- The plan of entries, or why they make none. -/
def construct (e : Entries) : Except Obstacle Plan := do
  let root ← findRoot e.ranked e.root
  let graph ← e.edges.foldlM (joinEntry e.ranked) (bare e.ranked)
  return { graph, root }

theorem addInputs_eq (nodes : List (String × PlanNode)) : ∀ (targets : List String)
    (g : Graph PlanNode),
    addInputs nodes source g targets = (joinInputs nodes source g targets).toOption := by
  intro targets
  induction targets with
  | nil => intro g; rfl
  | cons target targets ih =>
      intro g
      rw [addInputs, joinInputs]
      cases numberOf? nodes source with
      | none => rfl
      | some s =>
          cases numberOf? nodes target with
          | none => rfl
          | some t =>
              simp only [Option.bind_eq_bind, Option.bind_some]
              cases g.addEdge s t with
              | error d => rfl
              | ok g' => exact ih g'

theorem addEntry_eq (nodes : List (String × PlanNode)) (g : Graph PlanNode)
    (edge : String × List String) :
    addEntry nodes g edge = (joinEntry nodes g edge).toOption := by
  unfold addEntry joinEntry
  cases numberOf? nodes edge.1 with
  | none => rfl
  | some s => exact addInputs_eq nodes edge.2 g

theorem foldlM_addEntry_eq (nodes : List (String × PlanNode)) :
    ∀ (edges : List (String × List String)) (g : Graph PlanNode),
      edges.foldlM (addEntry nodes) g = (edges.foldlM (joinEntry nodes) g).toOption := by
  intro edges
  induction edges with
  | nil => intro g; rfl
  | cons edge edges ih =>
      intro g
      rw [List.foldlM_cons, List.foldlM_cons, addEntry_eq]
      cases joinEntry nodes g edge with
      | error o => rfl
      | ok g' => exact ih g'

/-- Reading is construction with its obstacles forgotten. -/
theorem ofEntries?_eq_construct (e : Entries) : ofEntries? e = e.construct.toOption := by
  rw [ofEntries?_eq, construct]
  have hroot : rootOf? e.ranked e.root = (findRoot e.ranked e.root).toOption := by
    cases e.root with
    | none => rfl
    | some key =>
        simp only [rootOf?, findRoot]
        cases numberOf? e.ranked key <;> rfl
  rw [hroot]
  cases findRoot e.ranked e.root with
  | error o => rfl
  | ok root =>
      have hgraph := foldlM_addEntry_eq e.ranked e.edges (bare e.ranked)
      simp only [Except.toOption, Option.bind_eq_bind, Option.bind_some, hgraph]
      cases List.foldlM (joinEntry e.ranked) (bare e.ranked) e.edges <;> rfl

/-! ### Unknown keys are the only obstacle -/

theorem joinInputs_ok (hsource : source ∈ e.keys) : ∀ {targets : List String}
    {g : Graph PlanNode}, g.size = e.ranked.length → (∀ target ∈ targets, target ∈ e.keys) →
    joinInputs e.ranked source g targets
      = .ok (g.attach (e.number source) (targets.map e.number)) := by
  intro targets
  induction targets with
  | nil =>
      intro g _ _
      rw [List.map_nil, Graph.attach_nil]
      rfl
  | cons target targets ih =>
      intro g hg htargets
      rw [List.forall_mem_cons] at htargets
      have hadd : g.addEdge (e.number source) (e.number target)
          = .ok (g.attach (e.number source) [e.number target]) :=
        Graph.addEdge_eq_ok.mpr
          ⟨hg ▸ number_lt_iff.mpr htargets.1, hg ▸ number_lt_iff.mpr hsource, rfl⟩
      rw [joinInputs, numberOf?_of_mem hsource, numberOf?_of_mem htargets.1]
      simp only [hadd]
      rw [ih (by rw [Graph.size_attach, hg]) htargets.2, Graph.attach_attach,
        List.singleton_append, List.map_cons]

theorem joinInputs_unknown (hsource : source ∈ e.keys) : ∀ {targets : List String}
    {g : Graph PlanNode}, g.size = e.ranked.length → (∃ target ∈ targets, target ∉ e.keys) →
    joinInputs e.ranked source g targets = .error .unknownKey := by
  intro targets
  induction targets with
  | nil =>
      rintro g - ⟨target, hmem, -⟩
      cases hmem
  | cons target targets ih =>
      intro g hg hunknown
      rw [joinInputs, numberOf?_of_mem hsource]
      by_cases htarget : target ∈ e.keys
      · have hadd : g.addEdge (e.number source) (e.number target)
            = .ok (g.attach (e.number source) [e.number target]) :=
          Graph.addEdge_eq_ok.mpr
            ⟨hg ▸ number_lt_iff.mpr htarget, hg ▸ number_lt_iff.mpr hsource, rfl⟩
        have hrest : ∃ target ∈ targets, target ∉ e.keys := by
          obtain ⟨other, hmem, hother⟩ := hunknown
          rcases List.mem_cons.mp hmem with rfl | hmem
          · exact absurd htarget hother
          · exact ⟨other, hmem, hother⟩
        rw [numberOf?_of_mem htarget]
        simp only [hadd]
        exact ih (by rw [Graph.size_attach, hg]) hrest
      · rw [numberOf?_of_not_mem htarget]

/-- An entry adds its inputs or names an unknown key. -/
theorem joinEntry_cases (hg : g.size = e.ranked.length) (edge : String × List String) :
    (edge.1 ∈ e.keys ∧ ∀ target ∈ edge.2, target ∈ e.keys) ∧
        joinEntry e.ranked g edge = .ok (g.attach (e.link edge).1 (e.link edge).2) ∨
      ¬ (edge.1 ∈ e.keys ∧ ∀ target ∈ edge.2, target ∈ e.keys) ∧
        joinEntry e.ranked g edge = .error .unknownKey := by
  unfold joinEntry
  by_cases hsource : edge.1 ∈ e.keys
  · rw [numberOf?_of_mem hsource]
    by_cases htargets : ∀ target ∈ edge.2, target ∈ e.keys
    · exact .inl ⟨⟨hsource, htargets⟩, joinInputs_ok hsource hg htargets⟩
    · refine .inr ⟨fun h => htargets h.2, joinInputs_unknown hsource hg ?_⟩
      push Not at htargets
      exact htargets
  · rw [numberOf?_of_not_mem hsource]
    exact .inr ⟨fun h => hsource h.1, rfl⟩

/-- All entries add their inputs or one of them names an unknown key. -/
theorem foldlM_joinEntry_cases : ∀ (edges : List (String × List String)) {g : Graph PlanNode},
    g.size = e.ranked.length →
    (∀ edge ∈ edges, edge.1 ∈ e.keys ∧ ∀ target ∈ edge.2, target ∈ e.keys) ∧
        edges.foldlM (joinEntry e.ranked) g = .ok (g.attachAll (edges.map e.link)) ∨
      ¬ (∀ edge ∈ edges, edge.1 ∈ e.keys ∧ ∀ target ∈ edge.2, target ∈ e.keys) ∧
        edges.foldlM (joinEntry e.ranked) g = .error .unknownKey := by
  intro edges
  induction edges with
  | nil => intro g _; exact .inl ⟨by simp, rfl⟩
  | cons edge edges ih =>
      intro g hg
      rw [List.foldlM_cons, List.forall_mem_cons, List.map_cons]
      obtain ⟨hknown, hjoin⟩ | ⟨hunknown, hjoin⟩ := joinEntry_cases hg edge
      · rw [hjoin]
        have hsize : (g.attach (e.link edge).1 (e.link edge).2).size = e.ranked.length := by
          rw [Graph.size_attach, hg]
        obtain ⟨hall, hrest⟩ | ⟨hnot, hrest⟩ := ih hsize
        · exact .inl ⟨⟨hknown, hall⟩, hrest⟩
        · exact .inr ⟨fun h => hnot h.2, hrest⟩
      · rw [hjoin]
        exact .inr ⟨fun h => hunknown h.1, rfl⟩

theorem findRoot_cases (e : Entries) :
    (∀ key, e.root = some key → key ∈ e.keys) ∧
        findRoot e.ranked e.root = .ok (e.root.map e.number) ∨
      ¬ (∀ key, e.root = some key → key ∈ e.keys) ∧
        findRoot e.ranked e.root = .error .unknownKey := by
  cases hroot : e.root with
  | none => exact .inl ⟨nofun, rfl⟩
  | some key =>
      simp only [findRoot]
      by_cases hkey : key ∈ e.keys
      · rw [numberOf?_of_mem hkey]
        exact .inl ⟨fun k hk => Option.some.inj hk ▸ hkey, rfl⟩
      · rw [numberOf?_of_not_mem hkey]
        exact .inr ⟨fun h => hkey (h key rfl), rfl⟩

theorem size_bare (e : Entries) : (bare e.ranked).size = e.ranked.length := by
  simp [bare, Graph.size]

/-- **Entries make their plan if they name no unknown key, and otherwise that is what is wrong with
them.** -/
theorem construct_cases (e : Entries) :
    e.Closed ∧ e.construct = .ok e.plan ∨ ¬ e.Closed ∧ e.construct = .error .unknownKey := by
  unfold construct
  obtain ⟨hroot, hfound⟩ | ⟨hroot, hfound⟩ := e.findRoot_cases
  · rw [hfound]
    obtain ⟨hedges, hgraph⟩ | ⟨hedges, hgraph⟩ := foldlM_joinEntry_cases e.edges e.size_bare
    · refine .inl ⟨⟨hroot, fun edge h => (hedges edge h).1, fun edge h => (hedges edge h).2⟩, ?_⟩
      simp only [bind, Except.bind, hgraph]
      rfl
    · refine .inr ⟨fun h => hedges fun edge hedge =>
        ⟨h.sources edge hedge, h.targets edge hedge⟩, ?_⟩
      simp only [bind, Except.bind, hgraph]
  · rw [hfound]
    exact .inr ⟨fun h => hroot h.root, rfl⟩

/-- No edge is refused while entries are read. -/
theorem construct_ne_refused (e : Entries) (d : EdgeDefect) :
    e.construct ≠ .error (.refused d) := by
  obtain ⟨-, h⟩ | ⟨-, h⟩ := e.construct_cases
  · rw [h]
    exact nofun
  · rw [h]
    exact nofun

theorem ofEntries?_eq_some_iff {p : Plan} : ofEntries? e = some p ↔ e.Closed ∧ p = e.plan := by
  rw [ofEntries?_eq_construct]
  obtain ⟨hclosed, h⟩ | ⟨hclosed, h⟩ := e.construct_cases
  · rw [h]
    constructor
    · intro hp
      exact ⟨hclosed, (Option.some.inj hp).symm⟩
    · rintro ⟨-, rfl⟩
      rfl
  · rw [h]
    exact ⟨nofun, fun hp => absurd hp.1 hclosed⟩

end Entries

/-! ### The plan by its keys -/

/-- A plan has the operations of entries, numbered in the order of their ranks, each with the
inputs and the root that the entries name. -/
structure Numbers (p : Plan) (e : Entries) (number : String → NodeId) : Prop where
  /-- Every operation has one key. -/
  bijective : Set.BijOn number {key | key ∈ e.keys} {n | n < p.graph.size}
  ranked : ∀ key ∈ e.keys, ∀ other ∈ e.keys, number key < number other → rank key ≤ rank other
  node : ∀ m ∈ e.nodes, p.node? (number m.1) = some m.2
  inputs : ∀ key ∈ e.keys, p.inputs (number key) = (e.targets key).map number
  root : p.root = e.root.map number

namespace Entries

variable {e : Entries} {key : String}

/-- The operation of a key is found at its number. -/
theorem getElem?_number {m : String × PlanNode} (hkeys : e.keys.Nodup) (hm : m ∈ e.nodes) :
    e.ranked[e.number m.1]? = some m := by
  have hmem : m.1 ∈ e.keys := List.mem_map_of_mem hm
  have hlt : e.number m.1 < e.ranked.length := number_lt_iff.mpr hmem
  have hkey : (e.ranked[e.number m.1]).1 = m.1 := by
    have hfound := List.findIdx_getElem (w := show e.ranked.findIdx (fun n => n.1 == m.1)
      < e.ranked.length from hlt)
    simpa [number] using hfound
  have hsame : e.ranked[e.number m.1] = m :=
    List.inj_on_of_nodup_map hkeys (e.ranked_perm.subset (List.getElem_mem hlt)) hm hkey
  rw [List.getElem?_eq_getElem hlt, hsame]

theorem number_injOn (hkeys : e.keys.Nodup) : Set.InjOn e.number {key | key ∈ e.keys} := by
  intro key hkey other hother hsame
  obtain ⟨m, hm, rfl⟩ := List.mem_map.mp hkey
  obtain ⟨m', hm', rfl⟩ := List.mem_map.mp hother
  have hfirst := getElem?_number hkeys hm
  have hsecond := getElem?_number hkeys hm'
  rw [hsame, hsecond] at hfirst
  rw [Option.some.inj hfirst]

theorem size_plan (e : Entries) : e.plan.graph.size = e.nodes.length := by
  unfold plan
  rw [Graph.size_attachAll, size_bare, length_ranked]

/-- Every edge that an entry names is counted. -/
theorem edgeCount_plan (e : Entries) :
    e.plan.graph.edgeCount = total (e.edges.map fun edge => edge.2.length) := by
  unfold plan
  rw [Graph.edgeCount_attachAll, List.map_map]
  have hlengths : (fun l : NodeId × List NodeId => l.2.length) ∘ e.link
      = fun edge => edge.2.length := by
    funext edge
    exact List.length_map _
  rw [hlengths]
  exact Nat.zero_add _

theorem nodup_links (he : e.Distinct) (hclosed : e.Closed) :
    ((e.edges.map e.link).map Prod.fst).Nodup := by
  have hnumbers : (e.edges.map e.link).map Prod.fst = (e.edges.map Prod.fst).map e.number := by
    rw [List.map_map, List.map_map]
    rfl
  rw [hnumbers]
  refine List.Nodup.map_on ?_ he.edges
  intro key hkey other hother
  obtain ⟨edge, hedge, rfl⟩ := List.mem_map.mp hkey
  obtain ⟨edge', hedge', rfl⟩ := List.mem_map.mp hother
  exact fun h => number_injOn he.nodes (hclosed.sources edge hedge) (hclosed.sources edge' hedge') h

/-- The entries give an operation what the entry of its key says. -/
theorem given_links_number (he : e.Distinct) (hclosed : e.Closed) (hkey : key ∈ e.keys) :
    Graph.given (e.edges.map e.link) (e.number key) = (e.targets key).map e.number := by
  unfold targets
  cases hlookup : e.edges.lookup key with
  | some names =>
      exact Graph.given_of_mem (nodup_links he hclosed)
        (List.mem_map.mpr ⟨_, Lookup.mem hlookup, rfl⟩)
  | none =>
      refine Graph.given_eq_nil fun link hlink hsame => ?_
      obtain ⟨edge, hedge, rfl⟩ := List.mem_map.mp hlink
      have hequal : edge.1 = key :=
        number_injOn he.nodes (hclosed.sources edge hedge) hkey hsame
      exact Lookup.ne_of_eq_none hlookup hedge hequal

theorem getElem?_plan (he : e.Distinct) (hclosed : e.Closed) {m : String × PlanNode}
    (hm : m ∈ e.nodes) :
    e.plan.graph.nodes[e.number m.1]? = some ⟨m.2, (e.targets m.1).map e.number⟩ := by
  have hnode : (bare e.ranked).nodes[e.number m.1]? = some ⟨m.2, []⟩ := by
    rw [bare, List.getElem?_map, getElem?_number he.nodes hm]
    rfl
  unfold plan
  rw [Graph.getElem?_attachAll, hnode, Option.map_some,
    given_links_number he hclosed (List.mem_map_of_mem hm), List.nil_append]

/-- **The plan of entries has what they say under each key.** -/
theorem numbers_plan (he : e.Distinct) (hclosed : e.Closed) : e.plan.Numbers e e.number where
  bijective := by
    refine ⟨fun key hkey => ?_, number_injOn he.nodes, fun n hn => ?_⟩
    · have hlt : e.number key < e.ranked.length := number_lt_iff.mpr hkey
      show e.number key < e.plan.graph.size
      rw [size_plan, ← length_ranked]
      exact hlt
    · have hlt : n < e.ranked.length := by
        rw [length_ranked, ← size_plan]
        exact hn
      have hmem : e.ranked[n] ∈ e.nodes := e.ranked_perm.subset (List.getElem_mem hlt)
      refine ⟨e.ranked[n].1, List.mem_map_of_mem hmem, ?_⟩
      have hfound := getElem?_number he.nodes hmem
      have hnodup : e.ranked.Nodup := e.ranked_perm.nodup_iff.mpr (List.Nodup.of_map _ he.nodes)
      rw [← List.getElem?_eq_getElem hlt] at hfound
      exact ((List.getElem?_inj hlt hnodup).mp hfound.symm).symm
  ranked := by
    intro key hkey other hother hlt
    obtain ⟨m, hm, rfl⟩ := List.mem_map.mp hkey
    obtain ⟨m', hm', rfl⟩ := List.mem_map.mp hother
    have hfirst := getElem?_number he.nodes hm
    have hsecond := getElem?_number he.nodes hm'
    obtain ⟨hi, hfirst⟩ := List.getElem?_eq_some_iff.mp hfirst
    obtain ⟨hj, hsecond⟩ := List.getElem?_eq_some_iff.mp hsecond
    have hordered := List.pairwise_iff_getElem.mp e.pairwise_ranked _ _ hi hj hlt
    rw [hfirst, hsecond] at hordered
    exact hordered
  node := by
    intro m hm
    unfold node? Graph.data?
    rw [getElem?_plan he hclosed hm]
    rfl
  inputs := by
    intro key hkey
    obtain ⟨m, hm, rfl⟩ := List.mem_map.mp hkey
    unfold inputs Graph.targets
    rw [getElem?_plan he hclosed hm]
  root := rfl

end Entries

end StreamQuery.Plan
