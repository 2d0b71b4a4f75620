/-
Ways through a plan, and the walk that looks for them.

A path names the input to go to at each node, so two edges between the same nodes
make two paths.  `Plan.Reaches` says that there is a path, and nothing here asks
whether the plan has cycles.

The walk of a plan is bounded by a number, and what has to be shown is that the
bound is never felt: on its way down the walk meets no node twice, so the nodes of
the plan that it has not visited become fewer with every step.  A walk with more
room than there are such nodes is the walk without a bound.
-/
import Mathlib.Data.Finset.Card
import StreamQuery.Proofs.Query.Layout

namespace StreamQuery

namespace Plan

/-! ### Paths -/

/-- The node that a path leads to.  Each step goes to the input at a position. -/
def follow (p : Plan) : NodeId → List Nat → Option NodeId
  | n, [] => some n
  | n, i :: path => (p.inputs n)[i]?.bind fun m => p.follow m path

/-- A path leads from one node to another. -/
def Reaches (p : Plan) (n m : NodeId) : Prop :=
  ∃ path, p.follow n path = some m

variable {p : Plan} {n m : NodeId}

theorem follow_append (p : Plan) : ∀ (path path' : List Nat) (n : NodeId),
    p.follow n (path ++ path') = (p.follow n path).bind fun m => p.follow m path' := by
  intro path path'
  induction path with
  | nil => intro n; rfl
  | cons i path ih =>
      intro n
      simp only [List.cons_append, follow, Option.bind_assoc]
      exact congrArg _ (funext fun m => ih m)

/-- The last step of a path. -/
theorem follow_concat {path : List Nat} {i : Nat} (h : p.follow n (path ++ [i]) = some m) :
    ∃ k, p.follow n path = some k ∧ (p.inputs k)[i]? = some m := by
  rw [follow_append, Option.bind_eq_some_iff] at h
  obtain ⟨k, hk, hstep⟩ := h
  refine ⟨k, hk, ?_⟩
  simpa [follow] using hstep

theorem Reaches.refl (p : Plan) (n : NodeId) : p.Reaches n n :=
  ⟨[], rfl⟩

theorem Reaches.trans {k : NodeId} (h : p.Reaches n m) (h' : p.Reaches m k) :
    p.Reaches n k := by
  obtain ⟨path, hpath⟩ := h
  obtain ⟨path', hpath'⟩ := h'
  refine ⟨path ++ path', ?_⟩
  rw [follow_append, hpath]
  exact hpath'

theorem reaches_of_input (h : m ∈ p.inputs n) : p.Reaches n m := by
  obtain ⟨i, hi⟩ := List.mem_iff_getElem?.mp h
  exact ⟨[i], by simp [follow, hi]⟩

/-- Each node below `root` is reached by one path only. -/
def OnePath (p : Plan) (root : NodeId) : Prop :=
  ∀ path path' n, p.follow root path = some n → p.follow root path' = some n → path = path'

namespace OnePath

variable {root : NodeId}

/-- No path leads from the input of a node back to it. -/
theorem not_back (h : p.OnePath root) (hn : p.Reaches root n) (hm : m ∈ p.inputs n) :
    ¬ p.Reaches m n := by
  rintro ⟨back, hback⟩
  obtain ⟨path, hpath⟩ := hn
  obtain ⟨i, hi⟩ := List.mem_iff_getElem?.mp hm
  have hloop : p.follow root (path ++ i :: back) = some n := by
    rw [follow_append, hpath, Option.bind_some, follow, hi, Option.bind_some, hback]
  have hsame := congrArg List.length (h path _ n hpath hloop)
  simp at hsame

/-- The inputs of a node reach no node together. -/
theorem apart (h : p.OnePath root) (hn : p.Reaches root n) :
    (p.inputs n).Pairwise fun a b => ∀ m, p.Reaches a m → ¬ p.Reaches b m := by
  obtain ⟨path, hpath⟩ := hn
  refine List.pairwise_iff_getElem.mpr ?_
  rintro i j hi hj hlt m ⟨left, hleft⟩ ⟨right, hright⟩
  have hdown : ∀ (k : Nat) (hk : k < (p.inputs n).length) (rest : List Nat),
      p.follow (p.inputs n)[k] rest = some m →
        p.follow root (path ++ k :: rest) = some m := by
    intro k hk rest hrest
    rw [follow_append, hpath, Option.bind_some, follow, List.getElem?_eq_getElem hk,
      Option.bind_some, hrest]
  have hsame := List.append_cancel_left
    (h _ _ m (hdown i hi left hleft) (hdown j hj right hright))
  injection hsame with hij
  omega

end OnePath

/-! ### The bound of the walk -/

/-- How many nodes of a plan are not visited. -/
def unvisited (p : Plan) (visited : List NodeId) : Nat :=
  (Finset.range p.graph.size \ visited.toFinset).card

theorem unvisited_nil (p : Plan) : p.unvisited [] = p.graph.size := by
  simp [unvisited]

theorem unvisited_le {visited visited' : List NodeId} (h : visited ⊆ visited') :
    p.unvisited visited' ≤ p.unvisited visited := by
  refine Finset.card_le_card (Finset.sdiff_subset_sdiff (Finset.Subset.refl _) ?_)
  intro k hk
  rw [List.mem_toFinset] at hk ⊢
  exact h hk

theorem lt_size_of_node {op : PlanNode} (h : p.node? n = some op) : n < p.graph.size := by
  unfold node? Graph.data? at h
  obtain ⟨node, hnode, -⟩ := Option.map_eq_some_iff.mp h
  exact (List.getElem?_eq_some_iff.mp hnode).1

/-- Visiting a node of the plan for the first time leaves fewer. -/
theorem unvisited_lt {visited : List NodeId} {op : PlanNode} (hnode : p.node? n = some op)
    (hnew : n ∉ visited) : p.unvisited (n :: visited) < p.unvisited visited := by
  refine Finset.card_lt_card (Finset.ssubset_iff_of_subset ?_ |>.mpr ⟨n, ?_, ?_⟩)
  · intro k hk
    simp only [Finset.mem_sdiff, List.toFinset_cons, Finset.mem_insert, not_or] at hk ⊢
    exact ⟨hk.1, hk.2.2⟩
  · simp [lt_size_of_node hnode, hnew]
  · simp

theorem walkAll_eq_of_room {fuel fuel' : Nat}
    (h : ∀ n visited, p.unvisited visited < fuel → p.unvisited visited < fuel' →
      p.walk fuel n visited = p.walk fuel' n visited) (ns : List NodeId) :
    ∀ visited, p.unvisited visited < fuel → p.unvisited visited < fuel' →
      p.walkAll fuel ns visited = p.walkAll fuel' ns visited := by
  induction ns with
  | nil => intro visited _ _; rfl
  | cons n ns ih =>
      intro visited hroom hroom'
      have hmono : p.unvisited (p.walk fuel n visited).2 ≤ p.unvisited visited :=
        unvisited_le (p.walk_mono fuel n visited)
      have hrest := ih (p.walk fuel n visited).2 (by omega) (by omega)
      simp only [walkAll]
      rw [← h n visited hroom hroom', hrest]

/-- **A walk with more room than there are nodes to visit does not depend on how much room
there is.** -/
theorem walk_eq_of_room (p : Plan) : ∀ fuel fuel' n visited, p.unvisited visited < fuel →
    p.unvisited visited < fuel' → p.walk fuel n visited = p.walk fuel' n visited := by
  intro fuel
  induction fuel with
  | zero => intro fuel' n visited hroom _; omega
  | succ fuel ih =>
      intro fuel' n visited hroom hroom'
      obtain ⟨fuel', rfl⟩ : ∃ k, fuel' = k + 1 := ⟨fuel' - 1, by omega⟩
      rw [walk_succ, walk_succ]
      by_cases hmem : n ∈ visited
      · rw [if_pos hmem, if_pos hmem]
      · rw [if_neg hmem, if_neg hmem]
        cases hnode : p.node? n with
        | none => rfl
        | some op =>
            have hfewer := unvisited_lt hnode hmem
            have hsame := walkAll_eq_of_room (ih fuel') (p.inputs n) (n :: visited)
              (by omega) (by omega)
            simp only [hsame]

theorem tree_of_root (h : p.root = some n) : p.tree = (p.walk (p.graph.size + 1) n []).1 := by
  unfold tree
  rw [h]

/-! ### What a walk visits -/

theorem reaches_of_mem_walkAll {fuel : Nat}
    (h : ∀ n visited k, k ∈ (p.walk fuel n visited).2 → k ∈ visited ∨ p.Reaches n k)
    (ns : List NodeId) : ∀ visited k, k ∈ (p.walkAll fuel ns visited).2 →
      k ∈ visited ∨ ∃ m ∈ ns, p.Reaches m k := by
  induction ns with
  | nil => intro visited k hk; exact .inl hk
  | cons n ns ih =>
      intro visited k hk
      rcases ih _ k hk with hfirst | ⟨m, hm, hreach⟩
      · rcases h n visited k hfirst with hbefore | hreach
        · exact .inl hbefore
        · exact .inr ⟨n, List.mem_cons_self, hreach⟩
      · exact .inr ⟨m, List.mem_cons_of_mem _ hm, hreach⟩

/-- A walk visits nothing but what its start reaches. -/
theorem reaches_of_mem_walk (p : Plan) : ∀ fuel n visited k, k ∈ (p.walk fuel n visited).2 →
    k ∈ visited ∨ p.Reaches n k := by
  intro fuel
  induction fuel with
  | zero => intro n visited k hk; exact .inl hk
  | succ fuel ih =>
      intro n visited k hk
      have hhere : k ∈ n :: visited → k ∈ visited ∨ p.Reaches n k := by
        intro hcons
        rcases List.mem_cons.mp hcons with rfl | hbefore
        · exact .inr (.refl p _)
        · exact .inl hbefore
      rw [walk_succ] at hk
      split at hk
      · exact .inl hk
      · split at hk
        · exact hhere hk
        · split at hk
          · rcases reaches_of_mem_walkAll ih _ _ k hk with hcons | ⟨m, hm, hreach⟩
            · exact hhere hcons
            · exact .inr ((reaches_of_input hm).trans hreach)
          · exact hhere hk

end Plan

end StreamQuery
