/-
The order of a map makes no difference to a plan.

The operations and their inputs are kept in maps, and a map may be come across in any order.
`Traversal` is such an order, and `readPlanIn` reads a plan with it.  Which keys there are and
what stands under each does not depend on the order, so neither does whether a text is
refused.  The order does decide how operations of one rank are numbered, and that is all it
decides: the plans are numberings of the same entries, so each is the other with its nodes
renamed, and a renaming is not seen by a query.

If no two keys have one rank there is a single way to put them in order, and then the plans
are the same.
-/
import Mathlib
import StreamQuery.Proofs.Json.Acceptance
import StreamQuery.Proofs.Json.Plan
import StreamQuery.Proofs.Query.Renaming

namespace StreamQuery.Plan

namespace Entries

variable {e e' : Entries} {key : String} {names : List String}

/-! ### What does not depend on the order -/

theorem Reorders.symm (h : e.Reorders e') : e'.Reorders e :=
  ⟨h.nodes.symm, h.edges.symm, h.root.symm⟩

theorem Reorders.mem_keys_iff (h : e.Reorders e') : key ∈ e.keys ↔ key ∈ e'.keys :=
  (h.nodes.map Prod.fst).mem_iff

theorem Reorders.distinct (h : e.Reorders e') (he : e.Distinct) : e'.Distinct :=
  ⟨(h.nodes.map Prod.fst).nodup_iff.mp he.nodes, (h.edges.map Prod.fst).nodup_iff.mp he.edges⟩

theorem Reorders.closed (h : e.Reorders e') (he : e.Closed) : e'.Closed where
  root := fun key hkey => h.mem_keys_iff.mp (he.root key (h.root.trans hkey))
  sources := fun edge hedge => h.mem_keys_iff.mp (he.sources edge (h.edges.mem_iff.mpr hedge))
  targets := fun edge hedge key hkey =>
    h.mem_keys_iff.mp (he.targets edge (h.edges.mem_iff.mpr hedge) key hkey)

theorem Reorders.targets (h : e.Reorders e') (he : e.Distinct) (key : String) :
    e.targets key = e'.targets key := by
  have hlookup : e.edges.lookup key = e'.edges.lookup key := by
    refine Option.ext fun names => ?_
    rw [Lookup.eq_some_iff_mem he.edges, Lookup.eq_some_iff_mem (h.distinct he).edges]
    exact h.edges.mem_iff
  unfold Entries.targets
  rw [hlookup]

/-- If no two operations have one rank, there is one way to put them in order. -/
theorem Reorders.ranked (h : e.Reorders e') (he : e.Distinct)
    (hranks : Set.InjOn rank {key | key ∈ e.keys}) : e.ranked = e'.ranked := by
  have hperm : e.ranked.Perm e'.ranked :=
    e.ranked_perm.trans (h.nodes.trans e'.ranked_perm.symm)
  refine hperm.eq_of_pairwise ?_ e.pairwise_ranked e'.pairwise_ranked
  intro m m' hm hm' hle hle'
  have hmem : m ∈ e.nodes := e.ranked_perm.subset hm
  have hmem' : m' ∈ e.nodes := h.nodes.symm.subset (e'.ranked_perm.subset hm')
  have hkey : m.1 = m'.1 := hranks (List.mem_map_of_mem hmem) (List.mem_map_of_mem hmem')
    (Nat.le_antisymm hle hle')
  exact List.inj_on_of_nodup_map he.nodes hmem hmem' hkey

end Entries

namespace Numbers

variable {p q : Plan} {e e' : Entries} {ν μ : String → NodeId}

/-- What a plan has under each key is the same in every order of the entries. -/
theorem of_reorders (hp : p.Numbers e' ν) (h : e.Reorders e') (he : e.Distinct) :
    p.Numbers e ν where
  bijective := by
    have hkeys : {key | key ∈ e.keys} = {key | key ∈ e'.keys} :=
      Set.ext fun key => h.mem_keys_iff
    rw [hkeys]
    exact hp.bijective
  ranked := fun key hkey other hother =>
    hp.ranked key (h.mem_keys_iff.mp hkey) other (h.mem_keys_iff.mp hother)
  node := fun m hm => hp.node m (h.nodes.subset hm)
  inputs := by
    intro key hkey
    rw [h.targets he]
    exact hp.inputs key (h.mem_keys_iff.mp hkey)
  root := by
    rw [h.root]
    exact hp.root

theorem number_mem_iff (hp : p.Numbers e ν) {n : NodeId} :
    n < p.graph.size ↔ ∃ key ∈ e.keys, ν key = n := by
  constructor
  · exact fun hn => hp.bijective.surjOn hn
  · rintro ⟨key, hkey, rfl⟩
    exact hp.bijective.mapsTo hkey

/-- Operations that are reached have keys. -/
theorem key_of_reached (hp : p.Numbers e ν) (he : e.Closed) {n : NodeId} (hn : p.Reached n) :
    ∃ key ∈ e.keys, ν key = n := by
  obtain ⟨root, hroot, path, hpath⟩ := hn
  rw [hp.root] at hroot
  obtain ⟨key, hkey, rfl⟩ := Option.map_eq_some_iff.mp hroot
  have hmem : key ∈ e.keys := he.root key hkey
  clear hroot hkey
  induction path generalizing key with
  | nil =>
      cases hpath
      exact ⟨key, hmem, rfl⟩
  | cons i path ih =>
      rw [follow, hp.inputs key hmem, List.getElem?_map] at hpath
      obtain ⟨m, hm, hpath⟩ := Option.bind_eq_some_iff.mp hpath
      obtain ⟨target, htarget, rfl⟩ := Option.map_eq_some_iff.mp hm
      exact ih target hpath (he.mem_keys_of_target (List.mem_of_getElem? htarget))

/-- Numberings of the same entries are renamings of each other. -/
theorem renames (hp : p.Numbers e ν) (hq : q.Numbers e μ) (he : e.Closed) :
    ∃ f, p.Renames q f ∧ ∀ key ∈ e.keys, f (ν key) = μ key := by
  classical
  let f : NodeId → NodeId := fun n => μ (Function.invFunOn ν {key | key ∈ e.keys} n)
  have hf : ∀ key ∈ e.keys, f (ν key) = μ key := fun key hkey =>
    congrArg μ (hp.bijective.injOn.leftInvOn_invFunOn hkey)
  refine ⟨f, ⟨?_, ?_, ?_, ?_⟩, hf⟩
  · rw [hp.root, hq.root]
    cases hroot : e.root with
    | none => rfl
    | some key => exact congrArg some (hf key (he.root key hroot)).symm
  · intro n hn m hm hsame
    obtain ⟨key, hkey, rfl⟩ := hp.key_of_reached he hn
    obtain ⟨other, hother, rfl⟩ := hp.key_of_reached he hm
    rw [hf key hkey, hf other hother] at hsame
    rw [hq.bijective.injOn hkey hother hsame]
  · intro n hn
    obtain ⟨key, hkey, rfl⟩ := hp.key_of_reached he hn
    obtain ⟨m, hm, rfl⟩ := List.mem_map.mp hkey
    rw [hf m.1 hkey, hp.node m hm, hq.node m hm]
  · intro n hn
    obtain ⟨key, hkey, rfl⟩ := hp.key_of_reached he hn
    rw [hf key hkey, hp.inputs key hkey, hq.inputs key hkey, List.map_map]
    exact List.map_congr_left fun target htarget =>
      (hf target (he.mem_keys_of_target htarget)).symm

theorem getElem?_nodes (hp : p.Numbers e ν) {m : String × PlanNode} (hm : m ∈ e.nodes) :
    p.graph.nodes[ν m.1]? = some ⟨m.2, (e.targets m.1).map ν⟩ := by
  have hdata : p.graph.nodes[ν m.1]?.map Graph.Node.data = some m.2 := hp.node m hm
  obtain ⟨node, hnode, hop⟩ := Option.map_eq_some_iff.mp hdata
  have hinputs := hp.inputs m.1 (List.mem_map_of_mem hm)
  unfold Plan.inputs Graph.targets at hinputs
  rw [hnode] at hinputs
  rw [hnode, ← hop, ← hinputs]

/-- Plans that number the same entries alike have the same operations. -/
theorem nodes_eq (hp : p.Numbers e ν) (hq : q.Numbers e ν) : p.graph.nodes = q.graph.nodes := by
  refine List.ext_getElem? fun n => ?_
  by_cases hn : n < p.graph.size
  · obtain ⟨key, hkey, rfl⟩ := hp.number_mem_iff.mp hn
    obtain ⟨m, hm, rfl⟩ := List.mem_map.mp hkey
    rw [hp.getElem?_nodes hm, hq.getElem?_nodes hm]
  · have hn' : ¬ n < q.graph.size :=
      fun h => hn (hp.number_mem_iff.mpr (hq.number_mem_iff.mp h))
    rw [List.getElem?_eq_none (Nat.le_of_not_lt hn), List.getElem?_eq_none (Nat.le_of_not_lt hn')]

end Numbers

/-- If no two operations have one rank, the entries make one plan in every order. -/
theorem Entries.Reorders.plan {e e' : Entries} (h : e.Reorders e') (he : e.Distinct)
    (hclosed : e.Closed) (hranks : Set.InjOn rank {key | key ∈ e.keys}) :
    e.plan = e'.plan ∧ e.number = e'.number := by
  have hnumber : e.number = e'.number := by
    unfold Entries.number
    rw [h.ranked he hranks]
  have hp := e.numbers_plan he hclosed
  have hq := (e'.numbers_plan (h.distinct he) (h.closed hclosed)).of_reorders h he
  rw [← hnumber] at hq
  have hcount : e.plan.graph.edgeCount = e'.plan.graph.edgeCount := by
    rw [e.edgeCount_plan, e'.edgeCount_plan]
    exact total_perm (h.edges.map _)
  have hgraph : e.plan.graph = e'.plan.graph :=
    congrArg₂ Graph.mk (hp.nodes_eq hq) hcount
  have hroot : e.plan.root = e'.plan.root := hp.root.trans hq.root.symm
  exact ⟨congrArg₂ Plan.mk hgraph hroot, hnumber⟩

/-! ### Reading in an order -/

/-- An order in which maps are come across. -/
structure Traversal where
  visit : Entries → Entries
  reorders : ∀ e, (visit e).Reorders e

/-- Maps are come across as they are written. -/
def Traversal.written : Traversal where
  visit := id
  reorders := .refl

/-- Reads a plan from its text, coming across its maps in an order. -/
def readPlanIn (t : Traversal) (text : List Char) : Except Failure Plan :=
  match Json.parse text >>= entries? >>= fun e => ofEntries? (t.visit e) with
  | none => .error .planText
  | some plan => .ok plan

theorem readPlanIn_written (text : List Char) :
    readPlanIn .written text = CommandLine.readPlan text :=
  rfl

/-- A text is refused, or it says entries that make a plan. -/
theorem readPlanIn_cases (text : List Char) :
    (∀ t, readPlanIn t text = .error .planText) ∨
      ∃ e : Entries, e.SaidBy text ∧ e.Closed ∧ ∀ t : Traversal,
        readPlanIn t text = .ok (t.visit e).plan := by
  unfold readPlanIn
  cases hread : Json.parse text >>= entries? with
  | none => exact .inl fun t => rfl
  | some e =>
      simp only [Option.bind_eq_bind, Option.bind_some]
      by_cases hclosed : e.Closed
      · refine .inr ⟨e, saidBy_iff.mpr hread, hclosed, fun t => ?_⟩
        rw [Entries.ofEntries?_eq_some_iff.mpr ⟨(t.reorders e).symm.closed hclosed, rfl⟩]
      · refine .inl fun t => ?_
        cases hplan : ofEntries? (t.visit e) with
        | none => rfl
        | some p =>
            exact absurd ((t.reorders e).closed (Entries.ofEntries?_eq_some_iff.mp hplan).1) hclosed

/-- **A plan does not depend on the order in which the maps of its text are come across.**

In any two orders a text is refused alike, or it says entries of which both make a plan; the plans
have the same operations, inputs and root under each key, so the second is the first with its nodes
renamed, and if no two keys have one rank they are one plan.

Beyond that, plans that differ in the numbers of the nodes that are reached, and in any way among
those that are not, cannot be told apart: they are assembled to the same tasks or fail alike, up to
the number of a node, the executor is set up in the same way, the same rows answer them, and a run
ends alike. -/
theorem readPlan_unordered (text : List Char) :
    CommandLine.readPlan text = readPlanIn .written text ∧
    (∀ t t' : Traversal,
      (∃ err, readPlanIn t text = .error err ∧ readPlanIn t' text = .error err) ∨
      ∃ (e : Entries) (p q : Plan) (ν μ : String → NodeId), e.SaidBy text ∧
        readPlanIn t text = .ok p ∧ readPlanIn t' text = .ok q ∧
        p.Numbers e ν ∧ q.Numbers e μ ∧
        (Set.InjOn rank {key | key ∈ e.keys} → p = q ∧ ν = μ) ∧
        ∃ f, p.Renames q f ∧ ∀ key ∈ e.keys, f (ν key) = μ key) ∧
    ∀ (p q : Plan) (f : NodeId → NodeId), p.Renames q f → ∀ c : Catalog,
      q.assemble c
        = ((p.assemble c).map (Assembly.rename f)).mapError (BuildError.rename f) ∧
      (∀ a, p.assemble c = .ok a → ∀ e : Executor,
        e.configure (a.rename f) = e.configure a) ∧
      (∀ rows, q.Answers c rows ↔ p.Answers c rows) ∧
      CommandLine.query c q = match p.assemble c with
        | .error err => .error (.ofBuild (err.rename f))
        | .ok _ => CommandLine.query c p := by
  refine ⟨(readPlanIn_written text).symm, fun t t' => ?_, fun p q f h c => ?_⟩
  · obtain hrefused | ⟨e, hsaid, hclosed, hread⟩ := readPlanIn_cases text
    · exact .inl ⟨_, hrefused t, hrefused t'⟩
    · have hdistinct := hsaid.distinct
      have hnumbers : ∀ t : Traversal, (t.visit e).plan.Numbers e (t.visit e).number := by
        intro t
        have hback := (t.reorders e).symm
        exact ((t.visit e).numbers_plan (hback.distinct hdistinct)
          (hback.closed hclosed)).of_reorders hback hdistinct
      refine .inr ⟨e, _, _, _, _, hsaid, hread t, hread t', hnumbers t, hnumbers t', ?_,
        (hnumbers t).renames (hnumbers t') hclosed⟩
      intro hranks
      obtain ⟨hplan, hnumber⟩ := (t.reorders e).symm.plan hdistinct hclosed hranks
      obtain ⟨hplan', hnumber'⟩ := (t'.reorders e).symm.plan hdistinct hclosed hranks
      exact ⟨hplan.symm.trans hplan', hnumber.symm.trans hnumber'⟩
  · exact ⟨h.assemble c, fun a _ e => e.configure_rename f a, fun rows => h.answers_iff, h.query c⟩

/-- Maps are come across from the end. -/
def Traversal.reversed : Traversal where
  visit e := { e with nodes := e.nodes.reverse, edges := e.edges.reverse }
  reorders e := ⟨e.nodes.reverse_perm, e.edges.reverse_perm, rfl⟩

/-- A union of two tables under keys. -/
def unionEntries (left right : String) : Entries where
  nodes := [(left, .scan "left"), (right, .scan "right"), ("2", .union)]
  edges := [("2", [left, right])]
  root := some "2"

/-- The plan of a union of two tables. -/
def unionOf (first second : String) (inputs : List NodeId) : Plan :=
  ⟨⟨[⟨.scan first, []⟩, ⟨.scan second, []⟩, ⟨.union, inputs⟩], 2⟩, some 2⟩

/-- Entries that are printed in the order in which they stand are read as they are. -/
theorem parse_entries {e : Entries} (he : e.Distinct) (hdepth : e.toJson.depth ≤ Json.maxDepth)
    (hsorted : entries? e.toJson = some e) : (Json.parse e.toJson.chars >>= entries?) = some e := by
  rw [Json.parse_chars (e.written_toJson he.nodes he.edges), if_pos hdepth]
  exact hsorted

theorem readPlanIn_eq {t : Traversal} {text : List Char} {e : Entries} {p : Plan}
    (hsaid : (Json.parse text >>= entries?) = some e) (hp : ofEntries? (t.visit e) = some p) :
    readPlanIn t text = .ok p := by
  unfold readPlanIn
  rw [hsaid, Option.bind_eq_bind, Option.bind_some, hp]

/-- A union of two tables.  Under keys of one rank it depends on the order which table is first, and
the answers do not; under keys of different ranks there is one plan. -/
theorem readPlan_unordered_of_union :
    (∃ (p q : Plan) (f : NodeId → NodeId),
      readPlanIn .written (unionEntries "01" "1").toJson.chars = .ok p ∧
      readPlanIn .reversed (unionEntries "01" "1").toJson.chars = .ok q ∧
      p.node? 0 = some (.scan "left") ∧ q.node? 0 = some (.scan "right") ∧
      p.Renames q f ∧ ∀ c rows, q.Answers c rows ↔ p.Answers c rows) ∧
    ∃ p : Plan, p.node? 0 = some (.scan "left") ∧
      ∀ t, readPlanIn t (unionEntries "0" "1").toJson.chars = .ok p := by
  constructor
  · have hsaid := parse_entries (e := unionEntries "01" "1") ⟨by decide, by decide⟩
      (by cbv) (by cbv)
    have hwritten := readPlanIn_eq (t := .written) hsaid
      (show _ = some (unionOf "left" "right" [0, 1]) by cbv)
    have hreversed := readPlanIn_eq (t := .reversed) hsaid
      (show _ = some (unionOf "right" "left" [1, 0]) by cbv)
    obtain ⟨-, hread, hquery⟩ := readPlan_unordered (unionEntries "01" "1").toJson.chars
    obtain ⟨err, herr, -⟩ | ⟨e, p, q, ν, μ, -, hp, hq, -, -, -, f, hf, -⟩ :=
      hread .written .reversed
    · rw [hwritten] at herr
      cases herr
    · cases hwritten.symm.trans hp
      cases hreversed.symm.trans hq
      exact ⟨_, _, f, hp, hq, rfl, rfl, hf, fun c => (hquery _ _ f hf c).2.2.1⟩
  · have hsays := parse_entries (e := unionEntries "0" "1") ⟨by decide, by decide⟩ (by cbv) (by cbv)
    have hwritten := readPlanIn_eq (t := .written) hsays
      (show _ = some (unionOf "left" "right" [0, 1]) by cbv)
    refine ⟨unionOf "left" "right" [0, 1], rfl, fun t => ?_⟩
    obtain ⟨-, hread, -⟩ := readPlan_unordered (unionEntries "0" "1").toJson.chars
    obtain ⟨err, herr, -⟩ | ⟨e, p, q, ν, μ, hsaid, hp, hq, -, -, hsame, -⟩ := hread .written t
    · rw [hwritten] at herr
      cases herr
    · have he : e = unionEntries "0" "1" :=
        Option.some.inj ((saidBy_iff.mp hsaid).symm.trans hsays)
      have hranks : (unionEntries "0" "1").keys.map rank = [0, 1, 2] := by
        cbv
      have hapart : Set.InjOn rank {key | key ∈ e.keys} := by
        rw [he]
        exact fun key hkey other hother =>
          List.inj_on_of_nodup_map (hranks ▸ by decide) hkey hother
      rw [hq, ← (hsame hapart).1, ← hp, hwritten]

end StreamQuery.Plan
