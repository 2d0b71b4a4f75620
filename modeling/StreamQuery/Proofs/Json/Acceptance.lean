/-
Which texts say a plan.

A text says a plan in two steps.  It has to be one value of JSON that holds entries: the
operations, for each key the keys of its inputs, and a root.  That is a matter of decoding,
and `Entries.SaidBy` spells it out.  Then the entries have to name no other keys than those
of operations.  Everything else is one failure, and nothing else can happen: entries whose
keys are known never ask for an edge that the graph refuses.
-/
import StreamQuery.CommandLine.Run
import StreamQuery.Proofs.Json.Decode
import StreamQuery.Proofs.Json.Nesting
import StreamQuery.Proofs.Plan.Entries

namespace StreamQuery

namespace Json

theorem mapM_eq_some_iff {α β : Type} {f : α → Option β} : ∀ {as : List α} {bs : List β},
    as.mapM f = some bs ↔ List.Forall₂ (fun a b => f a = some b) as bs := by
  intro as
  induction as with
  | nil =>
      intro bs
      simp [eq_comm]
  | cons a as ih =>
      intro bs
      rw [List.mapM_cons]
      constructor
      · intro h
        obtain ⟨b, hb, h⟩ := Option.bind_eq_some_iff.mp h
        obtain ⟨rest, hrest, h⟩ := Option.bind_eq_some_iff.mp h
        cases h
        exact .cons hb (ih.mp hrest)
      · intro h
        cases h with
        | cons hb hrest =>
            rw [hb, ih.mpr hrest]
            rfl

theorem toText?_eq_some_iff {j : Json} {s : String} : toText? j = some s ↔ j = .str s := by
  cases j <;> simp [toText?]

/-- A list of strings is read from an array of strings. -/
theorem toTexts?_eq_some_iff {j : Json} {texts : List String} :
    toList? toText? j = some texts ↔ j = .arr (texts.map .str) := by
  unfold toList?
  cases j with
  | arr items =>
      show items.mapM toText? = some texts ↔ _
      rw [mapM_eq_some_iff, Json.arr.injEq, ← List.forall₂_eq_eq_eq, List.forall₂_map_right_iff]
      simp only [toText?_eq_some_iff]
  | _ => simp [toItems?]

theorem toMembers?_eq_some_iff {j : Json} {members : List (String × Json)} :
    toMembers? j = some members ↔ j = .obj members := by
  cases j <;> simp [toMembers?]

end Json

namespace Plan

namespace Entries

/-- A value of JSON holds entries. -/
structure HeldBy (e : Entries) (j : Json) : Prop where
  /-- The operations are an object. -/
  nodes : ∃ members, j.member? "nodes" = some (.obj members) ∧
    List.Forall₂ (fun m n => n.1 = m.1 ∧ Json.toPlanNode? m.2 = some n.2) members e.nodes
  /-- The inputs are an object of arrays of strings. -/
  edges : ∃ members, j.member? "edges" = some (.obj members) ∧
    List.Forall₂ (fun m edge => edge.1 = m.1 ∧ m.2 = .arr (edge.2.map .str)) members e.edges
  /-- The root is a string, or null, or missing. -/
  root : e.root = none ∧ (j.member? "root" = none ∨ j.member? "root" = some .null) ∨
    ∃ key, e.root = some key ∧ j.member? "root" = some (.str key)

/-- A text is one value of JSON, readable in all its parts and nowhere nested deeper than the
limit, and it holds entries; of members with one key it is the last that counts. -/
def SaidBy (e : Entries) (text : List Char) : Prop :=
  ∃ j, Json.read text = some j ∧ j.readable = true ∧ j.depth ≤ Json.maxDepth ∧
    e.HeldBy j.distinct

end Entries

/-- The root that a value of JSON holds. -/
def heldRoot? (j : Json) : Option (Option String) :=
  match j.member? "root" with
  | none | some .null => some none
  | some (.str key) => some (some key)
  | some _ => none

/-- Entries are read member by member. -/
theorem entries?_eq (j : Json) : entries? j = (do
    let nodes ← j.member? "nodes" >>= Json.toMembers?
    let edges ← j.member? "edges" >>= Json.toMembers?
    let root ← heldRoot? j
    let nodes ← nodes.mapM fun m => (Json.toPlanNode? m.2).map (m.1, ·)
    let edges ← edges.mapM fun m => (Json.toList? Json.toText? m.2).map (m.1, ·)
    some { nodes, edges, root }) := by
  unfold entries? heldRoot?
  congr 1
  funext nodes
  congr 1
  funext edges
  cases j.member? "root" with
  | none => rfl
  | some v => cases v <;> rfl

theorem heldRoot?_eq_some_iff {j : Json} {root : Option String} :
    heldRoot? j = some root ↔
      root = none ∧ (j.member? "root" = none ∨ j.member? "root" = some .null) ∨
        ∃ key, root = some key ∧ j.member? "root" = some (.str key) := by
  unfold heldRoot?
  cases j.member? "root" with
  | none => simp [eq_comm]
  | some v => cases v <;> simp [eq_comm]

/-- **Entries are read from the values that hold them.** -/
theorem entries?_eq_some_iff {j : Json} {e : Entries} : entries? j = some e ↔ e.HeldBy j := by
  rw [entries?_eq]
  simp only [Option.bind_eq_bind, Option.bind_eq_some_iff, Json.toMembers?_eq_some_iff,
    heldRoot?_eq_some_iff, Json.mapM_eq_some_iff, Option.map_eq_some_iff,
    Json.toTexts?_eq_some_iff]
  constructor
  · rintro ⟨nodes, ⟨_, hnodes, rfl⟩, edges, ⟨_, hedges, rfl⟩, root, hroot, ops, hops, inputs,
      hinputs, he⟩
    cases he
    refine ⟨⟨nodes, hnodes, hops.imp ?_⟩, ⟨edges, hedges, hinputs.imp ?_⟩, hroot⟩
    · rintro m n ⟨op, hop, rfl⟩
      exact ⟨rfl, hop⟩
    · rintro m edge ⟨keys, hkeys, rfl⟩
      exact ⟨rfl, hkeys⟩
  · rintro ⟨⟨nodes, hnodes, hops⟩, ⟨edges, hedges, hinputs⟩, hroot⟩
    refine ⟨nodes, ⟨_, hnodes, rfl⟩, edges, ⟨_, hedges, rfl⟩, e.root, hroot, e.nodes,
      hops.imp ?_, e.edges, hinputs.imp ?_, rfl⟩
    · rintro m ⟨key, op⟩ ⟨rfl, hop⟩
      exact ⟨op, hop, rfl⟩
    · rintro m ⟨key, keys⟩ ⟨rfl, hkeys⟩
      exact ⟨keys, hkeys, rfl⟩

/-- The entries that a text says are those that are read from it. -/
theorem saidBy_iff {text : List Char} {e : Entries} :
    e.SaidBy text ↔ (Json.parse text >>= entries?) = some e := by
  unfold Json.parse Entries.SaidBy
  simp only [Option.bind_eq_bind, Option.bind_eq_some_iff, entries?_eq_some_iff]
  constructor
  · rintro ⟨j, hread, hreadable, -, he⟩
    exact ⟨j.distinct, ⟨j, hread, if_pos hreadable⟩, he⟩
  · rintro ⟨j', ⟨j, hread, hj⟩, he⟩
    split at hj
    · rename_i hreadable
      cases hj
      exact ⟨j, hread, hreadable, Json.depth_of_read hread, he⟩
    · cases hj

/-- A text says no key twice. -/
theorem Entries.SaidBy.distinct {text : List Char} {e : Entries} (h : e.SaidBy text) :
    e.Distinct := by
  obtain ⟨j, -, -, -, ⟨nodes, hnodes, hops⟩, ⟨edges, hedges, hinputs⟩, -⟩ := h
  have hkeys : e.keys = nodes.map Prod.fst := by
    rw [keys, ← List.forall₂_eq_eq_eq, List.forall₂_map_left_iff, List.forall₂_map_right_iff]
    exact hops.flip.imp fun n m h => h.1
  have hsources : e.edges.map Prod.fst = edges.map Prod.fst := by
    rw [← List.forall₂_eq_eq_eq, List.forall₂_map_left_iff, List.forall₂_map_right_iff]
    exact hinputs.flip.imp fun edge m h => h.1
  exact ⟨hkeys ▸ Json.nodup_of_member hnodes, hsources ▸ Json.nodup_of_member hedges⟩

/-- No operation of a text holds a closing mark. -/
theorem Entries.SaidBy.rowsOnly {text : List Char} {e : Entries} (h : e.SaidBy text) :
    ∀ node ∈ e.nodes, node.2.RowsOnly := by
  obtain ⟨j, -, -, -, ⟨nodes, -, hops⟩, -, -⟩ := h
  have hread := hops.flip.imp fun node m h => And.intro (Json.rowsOnly_of_toPlanNode? h.2) h
  exact ((List.forall₂_and_left _ _).mp hread).1

theorem ofText?_eq_some_iff {text : List Char} {p : Plan} :
    ofText? text = some p ↔ ∃ e : Entries, e.SaidBy text ∧ e.Closed ∧ p = e.plan := by
  refine Option.bind_eq_some_iff.trans ?_
  exact exists_congr fun e => and_congr saidBy_iff.symm Entries.ofEntries?_eq_some_iff

/-- A plan that a text says can be had. -/
theorem made_of_text {text : List Char} {p : Plan} (h : ofText? text = some p) : Made p := by
  obtain ⟨e, he, -, -⟩ := ofText?_eq_some_iff.mp h
  obtain ⟨e', hparse, hread⟩ := Option.bind_eq_some_iff.mp h
  cases hparse.symm.trans (saidBy_iff.mp he)
  exact .read he.rowsOnly hread

theorem readPlan_eq (text : List Char) : CommandLine.readPlan text =
    match ofText? text with
    | some p => .ok p
    | none => .error .planText := by
  unfold CommandLine.readPlan
  cases ofText? text <;> rfl

/-- **A text is accepted exactly if it says entries that name no unknown key.**

The plan then has as many operations as there are keys and as many edges as there are inputs named,
its operations are numbered in the order of the ranks of their keys, each has the inputs that are
named for it, in order, and the root is the one that is named, or none.  Any other text is refused,
and always for the one reason that it does not say a plan: while entries are read an unknown key is
all that stands in the way, and no edge is refused. -/
theorem accepted_iff_closed (text : List Char) :
    ((∃ p, CommandLine.readPlan text = .ok p) ↔ ∃ e : Entries, e.SaidBy text ∧ e.Closed) ∧
    ((∃ (e : Entries) (p : Plan) (number : String → NodeId), e.SaidBy text ∧ e.Closed ∧
        CommandLine.readPlan text = .ok p ∧ e.keys.Nodup ∧ p.graph.size = e.keys.length ∧
        p.graph.edgeCount = total (e.edges.map fun edge => edge.2.length) ∧
        p.Numbers e number) ∨
      (CommandLine.readPlan text).mapError Failure.message
        = .error "Validation Error: Malformatted logical plan json") ∧
    ∀ e : Entries, ofEntries? e = e.construct.toOption ∧
      ∀ d, e.construct ≠ .error (.refused d) := by
  have hconstruct : ∀ e : Entries, ofEntries? e = e.construct.toOption ∧
      ∀ d, e.construct ≠ .error (.refused d) :=
    fun e => ⟨e.ofEntries?_eq_construct, e.construct_ne_refused⟩
  rw [readPlan_eq]
  cases hread : ofText? text with
  | none =>
      refine ⟨⟨nofun, ?_⟩, .inr rfl, hconstruct⟩
      rintro ⟨e, hsaid, hclosed⟩
      rw [ofText?_eq_some_iff.mpr ⟨e, hsaid, hclosed, rfl⟩] at hread
      cases hread
  | some p =>
      obtain ⟨e, hsaid, hclosed, rfl⟩ := ofText?_eq_some_iff.mp hread
      have hdistinct := hsaid.distinct
      refine ⟨⟨fun _ => ⟨e, hsaid, hclosed⟩, fun _ => ⟨_, rfl⟩⟩, .inl ?_, hconstruct⟩
      refine ⟨e, e.plan, e.number, hsaid, hclosed, rfl, hdistinct.nodes, ?_, e.edgeCount_plan,
        e.numbers_plan hdistinct hclosed⟩
      rw [e.size_plan, Entries.keys, List.length_map]

end Plan

end StreamQuery
