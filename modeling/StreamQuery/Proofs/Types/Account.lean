/-
How often a record type is built.

A call for a record type is answered in one of three ways: its fields are walked and it is
finished; it was finished before and is used again; or it is being built, and the call gets a
placeholder.  `Walks` is building step by step with the calls written down in their order.

The account of the calls is kept against the resolver.  A type is walked when it becomes active,
and it stays active or finished from then on, so the types that were walked are those, each of
them once; a placeholder is handed out for a type that is active, and it gets a type behind it when
that one is finished.  `Tallies` says so of the calls so far, and every call keeps it.  What is left
is to count the calls of one type: the first is for itself, and the others are for the fields of
types that were walked.
-/
import Mathlib.Data.List.Dedup
import StreamQuery.Proofs.Lookup
import StreamQuery.Proofs.Types.Active
import StreamQuery.Proofs.Types.Failure
import StreamQuery.Row

namespace StreamQuery

/-- How a call for a record type is answered. -/
inductive Fate where
  /-- Its fields are walked. -/
  | walked
  /-- It was finished before. -/
  | reused
  /-- It is being built, so there is a placeholder for it. -/
  | deferred
deriving DecidableEq, Repr

/-- A call for the record type of a name. -/
structure Call where
  name : String
  fate : Fate
deriving DecidableEq, Repr

/-- The names that were called for and answered in one way, in the order of the calls. -/
def Call.names (fate : Fate) (calls : List Call) : List String :=
  (calls.filter fun c => c.fate = fate).map Call.name

namespace Call

variable {fate : Fate} {name : String}

theorem names_append (calls more : List Call) :
    names fate (calls ++ more) = names fate calls ++ names fate more := by
  unfold names
  rw [List.filter_append, List.map_append]

theorem names_cons (calls : List Call) :
    names fate (⟨name, fate⟩ :: calls) = name :: names fate calls := by
  simp [names]

theorem names_concat (calls : List Call) :
    names fate (calls ++ [⟨name, fate⟩]) = names fate calls ++ [name] := by
  simp [names]

theorem names_concat_other {other : Fate} (h : other ≠ fate) (calls : List Call) :
    names fate (calls ++ [⟨name, other⟩]) = names fate calls := by
  simp [names, h]

/-- Every call is answered in one of the three ways. -/
theorem length_names (calls : List Call) : calls.length
    = (names .walked calls).length + (names .reused calls).length
      + (names .deferred calls).length := by
  induction calls with
  | nil => rfl
  | cons c calls ih =>
      obtain ⟨name, fate⟩ := c
      cases fate <;> simp [names] at ih ⊢ <;> omega

theorem exists_of_mem_names {calls : List Call} (h : name ∈ names fate calls) :
    (⟨name, fate⟩ : Call) ∈ calls := by
  obtain ⟨⟨other, way⟩, hmem, rfl⟩ := List.mem_map.mp h
  obtain ⟨hcall, hway⟩ := List.mem_filter.mp hmem
  have hsame : way = fate := by simpa using hway
  exact hsame ▸ hcall

end Call

namespace Memo

variable (m : Memo) (key : TypeKey)

theorem lookup_placeholder (k : TypeKey) : (m.placeholder key).2.resolutions.lookup k
    = if k = key then some ((m.resolutions.lookup key).getD (.unresolved key))
      else m.resolutions.lookup k := by
  unfold placeholder
  cases hlookup : m.resolutions.lookup key with
  | some t =>
      by_cases hk : k = key
      · rw [if_pos hk, hk]
        exact hlookup
      · rw [if_neg hk]
  | none => exact Lookup.cons key _ _ k

/-- Handing out a placeholder counts as nothing. -/
theorem placeholder_counts : (m.placeholder key).2.reuseCount = m.reuseCount ∧
    (m.placeholder key).2.resolutionCount = m.resolutionCount := by
  unfold placeholder
  split <;> exact ⟨rfl, rfl⟩

theorem setResolution_reuseCount (t : DataType) :
    (m.setResolution key t).reuseCount = m.reuseCount := by
  unfold setResolution
  split <;> rfl

variable {m key}

/-- A type that is put behind a placeholder for the first time is counted. -/
theorem setResolution_resolutionCount {t : DataType}
    (h : ∀ u, m.resolutions.lookup key = some u → u = .unresolved key) :
    (m.setResolution key t).resolutionCount
      = m.resolutionCount + if (m.resolutions.lookup key).isSome then 1 else 0 := by
  unfold setResolution
  cases hlookup : m.resolutions.lookup key with
  | none => rfl
  | some u =>
      obtain rfl := h u hlookup
      rfl

end Memo

namespace TypeFactory

mutual
/-- A record type is built with these calls. -/
inductive Walks (types : TypeFactory) :
    String → Resolver → List Call → DataType → Resolver → Prop
  | reused {name : String} {d : Descriptor} {r : Resolver} {t : DataType} {m : Memo}
      (hd : types.find? name = some d)
      (hfound : r.toMemo.finished? (.named name) = (some t, m)) :
      Walks types name r [⟨name, .reused⟩] t { r with toMemo := m }
  | deferred {name : String} {d : Descriptor} {r r₁ : Resolver} {m : Memo}
      (hd : types.find? name = some d) (hnone : r.toMemo.finished? (.named name) = (none, m))
      (henter : Resolver.enter { r with toMemo := m } (.named name) = (false, r₁)) :
      Walks types name r [⟨name, .deferred⟩] (r₁.toMemo.placeholder (.named name)).1
        { r₁ with toMemo := (r₁.toMemo.placeholder (.named name)).2 }
  | walked {name : String} {d : Descriptor} {r r₁ r₂ : Resolver} {m : Memo} {calls : List Call}
      {attributes : List Attribute} (hd : types.find? name = some d)
      (hnone : r.toMemo.finished? (.named name) = (none, m))
      (henter : Resolver.enter { r with toMemo := m } (.named name) = (true, r₁))
      (hfields : WalksFields types d.fields r₁ calls attributes r₂) :
      Walks types name r (⟨name, .walked⟩ :: calls) (.struct attributes)
        { r₂.leave (.named name) with
          toMemo := ((r₂.leave (.named name)).toMemo.finish (.named name)
            (.struct attributes)).setResolution (.named name) (.struct attributes) }
/-- Fields are built in order with these calls; a primitive calls for nothing. -/
inductive WalksFields (types : TypeFactory) :
    List (String × String) → Resolver → List Call → List Attribute → Resolver → Prop
  | nil {r : Resolver} : WalksFields types [] r [] [] r
  | primitive {field : String × String} {rest : List (String × String)} {r r' : Resolver}
      {calls : List Call} {t : DataType} {attributes : List Attribute}
      (ht : DataType.ofName? field.2 = some t)
      (hrest : WalksFields types rest r calls attributes r') :
      WalksFields types (field :: rest) r calls (⟨field.1, t⟩ :: attributes) r'
  | record {field : String × String} {rest : List (String × String)} {r r₁ r' : Resolver}
      {first calls : List Call} {t : DataType} {attributes : List Attribute}
      (hnone : DataType.ofName? field.2 = none) (hfirst : Walks types field.2 r first t r₁)
      (hrest : WalksFields types rest r₁ calls attributes r') :
      WalksFields types (field :: rest) r (first ++ calls) (⟨field.1, t⟩ :: attributes) r'
end

/-- How many fields of the description of a name name a record. -/
def references (types : TypeFactory) (name : String) : Nat :=
  match types.find? name with
  | some d => d.fields.countP fun field => (DataType.ofName? field.2).isNone
  | none => 0

variable {types : TypeFactory} {name : String} {r r' : Resolver} {calls : List Call}
  {t : DataType}

theorem references_eq {d : Descriptor} (hd : types.find? name = some d) : types.references name
    = d.fields.countP fun field => (DataType.ofName? field.2).isNone := by
  unfold references
  rw [hd]

/-! ### Building and its calls -/

mutual
theorem Walks.builds : ∀ {name : String} {r r' : Resolver} {calls : List Call} {t : DataType},
    types.Walks name r calls t r' → types.Builds name r (.ok t) r'
  | _, _, _, _, _, .reused hd hfound => .finished hd hfound
  | _, _, _, _, _, .deferred hd hnone henter => .active hd hnone henter
  | _, _, _, _, _, .walked hd hnone henter hfields => .built hd hnone henter hfields.builds
theorem WalksFields.builds : ∀ {fields : List (String × String)} {r r' : Resolver}
    {calls : List Call} {attributes : List Attribute},
    types.WalksFields fields r calls attributes r' →
    types.BuildsFields fields r (.ok attributes) r'
  | _, _, _, _, _, .nil => .nil
  | _, _, _, _, _, .primitive ht hrest => .primitive ht hrest.builds
  | _, _, _, _, _, .record hnone hfirst hrest => .record hnone hfirst.builds hrest.builds
end

mutual
/-- What is built is built with some calls. -/
theorem Builds.walks : ∀ {name : String} {r r' : Resolver} {t : DataType},
    types.Builds name r (.ok t) r' → ∃ calls, types.Walks name r calls t r'
  | _, _, _, _, .finished hd hfound => ⟨_, .reused hd hfound⟩
  | _, _, _, _, .active hd hnone henter => ⟨_, .deferred hd hnone henter⟩
  | _, _, _, _, .built hd hnone henter hfields => by
      obtain ⟨calls, hcalls⟩ := hfields.walks rfl
      exact ⟨_, .walked hd hnone henter hcalls⟩
theorem BuildsFields.walks : ∀ {fields : List (String × String)} {r r' : Resolver}
    {result : Except UnknownType (List Attribute)} {attributes : List Attribute},
    types.BuildsFields fields r result r' → result = .ok attributes →
    ∃ calls, types.WalksFields fields r calls attributes r'
  | _, _, _, _, _, .nil, h => by
      cases h
      exact ⟨_, .nil⟩
  | _, _, _, _, _, @BuildsFields.primitive _ _ _ _ _ _ result ht hrest, h => by
      cases result with
      | error u => cases h
      | ok more =>
          cases h
          obtain ⟨calls, hcalls⟩ := hrest.walks rfl
          exact ⟨_, .primitive ht hcalls⟩
  | _, _, _, _, _, .failed _ _, h => by cases h
  | _, _, _, _, _, @BuildsFields.record _ _ _ _ _ _ _ result hnone hfirst hrest, h => by
      cases result with
      | error u => cases h
      | ok more =>
          cases h
          obtain ⟨first, hfirst'⟩ := hfirst.walks
          obtain ⟨calls, hcalls⟩ := hrest.walks rfl
          exact ⟨_, .record hnone hfirst' hcalls⟩
end

mutual
/-- The calls with which a type is built are determined. -/
theorem Walks.unique : ∀ {name : String} {r r' r'' : Resolver} {calls calls' : List Call}
    {t t' : DataType}, types.Walks name r calls t r' → types.Walks name r calls' t' r'' →
    calls' = calls ∧ t' = t ∧ r'' = r'
  | _, _, _, _, _, _, _, _, .reused hd hfound, h => by
      cases h with
      | reused _ hfound' =>
          cases hfound.symm.trans hfound'
          exact ⟨rfl, rfl, rfl⟩
      | deferred _ hnone => cases hfound.symm.trans hnone
      | walked _ hnone => cases hfound.symm.trans hnone
  | _, _, _, _, _, _, _, _, .deferred hd hnone henter, h => by
      cases h with
      | reused _ hfound => cases hnone.symm.trans hfound
      | deferred _ hnone' henter' =>
          cases hnone.symm.trans hnone'
          cases henter.symm.trans henter'
          exact ⟨rfl, rfl, rfl⟩
      | walked _ hnone' henter' =>
          cases hnone.symm.trans hnone'
          cases henter.symm.trans henter'
  | _, _, _, _, _, _, _, _, .walked hd hnone henter hfields, h => by
      cases h with
      | reused _ hfound => cases hnone.symm.trans hfound
      | deferred _ hnone' henter' =>
          cases hnone.symm.trans hnone'
          cases henter.symm.trans henter'
      | walked hd' hnone' henter' hfields' =>
          cases hd.symm.trans hd'
          cases hnone.symm.trans hnone'
          cases henter.symm.trans henter'
          obtain ⟨rfl, rfl, rfl⟩ := hfields.unique hfields'
          exact ⟨rfl, rfl, rfl⟩
theorem WalksFields.unique : ∀ {fields : List (String × String)} {r r' r'' : Resolver}
    {calls calls' : List Call} {attributes attributes' : List Attribute},
    types.WalksFields fields r calls attributes r' →
    types.WalksFields fields r calls' attributes' r'' →
    calls' = calls ∧ attributes' = attributes ∧ r'' = r'
  | _, _, _, _, _, _, _, _, .nil, .nil => ⟨rfl, rfl, rfl⟩
  | _, _, _, _, _, _, _, _, .primitive ht hrest, h => by
      cases h with
      | primitive ht' hrest' =>
          cases ht.symm.trans ht'
          obtain ⟨rfl, rfl, rfl⟩ := hrest.unique hrest'
          exact ⟨rfl, rfl, rfl⟩
      | record hnone => cases ht.symm.trans hnone
  | _, _, _, _, _, _, _, _, .record hnone hfirst hrest, h => by
      cases h with
      | primitive ht => cases hnone.symm.trans ht
      | record _ hfirst' hrest' =>
          obtain ⟨rfl, rfl, rfl⟩ := hfirst.unique hfirst'
          obtain ⟨rfl, rfl, rfl⟩ := hrest.unique hrest'
          exact ⟨rfl, rfl, rfl⟩
end

mutual
/-- Whatever is called for is described, and the name leads to it. -/
theorem Walks.leads : ∀ {name : String} {r r' : Resolver} {calls : List Call} {t : DataType},
    types.Walks name r calls t r' →
    ∀ c ∈ calls, types.Leads name c.name ∧ ∃ d, types.find? c.name = some d
  | _, _, _, _, _, .reused hd _ => List.forall_mem_singleton.mpr ⟨.refl, _, hd⟩
  | _, _, _, _, _, .deferred hd _ _ => List.forall_mem_singleton.mpr ⟨.refl, _, hd⟩
  | _, _, _, _, _, .walked hd _ _ hfields => by
      refine List.forall_mem_cons.mpr ⟨⟨.refl, _, hd⟩, fun c hc => ?_⟩
      obtain ⟨⟨field, hfield, hnone, hleads⟩, hdescribed⟩ := hfields.leads c hc
      exact ⟨.head (refers_of_find? hd field hfield hnone) hleads, hdescribed⟩
theorem WalksFields.leads : ∀ {fields : List (String × String)} {r r' : Resolver}
    {calls : List Call} {attributes : List Attribute},
    types.WalksFields fields r calls attributes r' →
    ∀ c ∈ calls, (∃ field ∈ fields, DataType.ofName? field.2 = none ∧
      types.Leads field.2 c.name) ∧ ∃ d, types.find? c.name = some d
  | _, _, _, _, _, .nil => by simp
  | _, _, _, _, _, .primitive _ hrest => by
      intro c hc
      obtain ⟨⟨field, hfield, hleads⟩, hdescribed⟩ := hrest.leads c hc
      exact ⟨⟨field, List.mem_cons_of_mem _ hfield, hleads⟩, hdescribed⟩
  | _, _, _, _, _, .record hnone hfirst hrest => by
      intro c hc
      rcases List.mem_append.mp hc with hc | hc
      · obtain ⟨hleads, hdescribed⟩ := hfirst.leads c hc
        exact ⟨⟨_, List.mem_cons_self, hnone, hleads⟩, hdescribed⟩
      · obtain ⟨⟨field, hfield, hleads⟩, hdescribed⟩ := hrest.leads c hc
        exact ⟨⟨field, List.mem_cons_of_mem _ hfield, hleads⟩, hdescribed⟩
end

/-- How many fields of the types that were walked name a record. -/
abbrev walkedReferences (types : TypeFactory) (calls : List Call) : Nat :=
  total ((Call.names .walked calls).map types.references)

theorem walkedReferences_append (first calls : List Call) : types.walkedReferences (first ++ calls)
    = types.walkedReferences first + types.walkedReferences calls := by
  unfold walkedReferences
  rw [Call.names_append, List.map_append]
  exact List.sum_append_nat

mutual
/-- Every call but the first is for a field of a type that was walked. -/
theorem Walks.length : ∀ {name : String} {r r' : Resolver} {calls : List Call} {t : DataType},
    types.Walks name r calls t r' → calls.length = 1 + types.walkedReferences calls
  | _, _, _, _, _, .reused _ _ => rfl
  | _, _, _, _, _, .deferred _ _ _ => rfl
  | _, _, _, _, _, .walked hd _ _ hfields => by
      have hcalls := hfields.length
      rw [walkedReferences] at hcalls ⊢
      rw [Call.names_cons, List.map_cons, total_cons, List.length_cons, references_eq hd]
      omega
theorem WalksFields.length : ∀ {fields : List (String × String)} {r r' : Resolver}
    {calls : List Call} {attributes : List Attribute},
    types.WalksFields fields r calls attributes r' → calls.length
      = fields.countP (fun field => (DataType.ofName? field.2).isNone)
        + types.walkedReferences calls
  | _, _, _, _, _, .nil => rfl
  | _, _, _, _, _, .primitive ht hrest => by
      rw [List.countP_cons_of_neg (by simp [ht])]
      exact hrest.length
  | _, _, _, _, _, .record hnone hfirst hrest => by
      have hcalls := hrest.length
      have hcalls' := hfirst.length
      rw [List.countP_cons_of_pos (by simp [hnone]), List.length_append, walkedReferences_append]
      omega
end

/-! ### The account of the calls -/

/-- What the calls so far have to do with what the resolver holds. -/
structure Tallies (types : TypeFactory) (calls : List Call) (r : Resolver) : Prop where
  /-- The types that were walked are active or finished. -/
  walked : ((Call.names .walked calls).map TypeKey.named).Perm
    (r.active ++ r.finished.map Prod.fst)
  /-- No type is active twice, finished twice, or both. -/
  once : (r.active ++ r.finished.map Prod.fst).Nodup
  described : ∀ name ∈ Call.names .walked calls, ∃ d, types.find? name = some d
  reused : r.reuseCount = (Call.names .reused calls).length
  deferred : Call.names .deferred calls ⊆ Call.names .walked calls
  /-- There is a placeholder for each type that was deferred, and for no other. -/
  handed : ∀ k, (r.resolutions.lookup k).isSome = true ↔
    k ∈ (Call.names .deferred calls).map TypeKey.named
  /-- Nothing is behind the placeholder of an active type. -/
  pending : ∀ k ∈ r.active, ∀ t, r.resolutions.lookup k = some t → t = .unresolved k
  /-- The placeholders of finished types are counted. -/
  resolved : r.resolutionCount
    = (r.finished.map Prod.fst).countP fun k => (r.resolutions.lookup k).isSome

theorem tallies_empty (types : TypeFactory) : types.Tallies [] .empty where
  walked := .refl _
  once := List.nodup_nil
  described := by simp [Call.names]
  reused := rfl
  deferred := List.Subset.refl _
  handed := by simp [Call.names, Resolver.empty, Memo.empty]
  pending := by simp [Resolver.empty]
  resolved := rfl

namespace Tallies

/-- A type with a placeholder is active or finished. -/
theorem begun_of_handed (h : types.Tallies calls r) {k : TypeKey}
    (hk : (r.resolutions.lookup k).isSome = true) : k ∈ r.active ++ r.finished.map Prod.fst := by
  obtain ⟨other, hother, rfl⟩ := List.mem_map.mp ((h.handed k).mp hk)
  exact h.walked.mem_iff.mp (List.mem_map_of_mem (h.deferred hother))

/-- A finished type is used again. -/
theorem reuse (h : types.Tallies calls r) (name : String) :
    types.Tallies (calls ++ [⟨name, .reused⟩])
      { r with toMemo := { r.toMemo with reuseCount := r.reuseCount + 1 } } := by
  have hwalked : Call.names .walked (calls ++ [⟨name, .reused⟩]) = Call.names .walked calls :=
    Call.names_concat_other (by decide) _
  have hdeferred :
      Call.names .deferred (calls ++ [⟨name, .reused⟩]) = Call.names .deferred calls :=
    Call.names_concat_other (by decide) _
  refine ⟨?_, h.once, ?_, ?_, ?_, ?_, h.pending, h.resolved⟩
  · rw [hwalked]
    exact h.walked
  · rw [hwalked]
    exact h.described
  · rw [Call.names_concat, List.length_append, ← h.reused]
    rfl
  · rw [hwalked, hdeferred]
    exact h.deferred
  · rw [hdeferred]
    exact h.handed

/-- An active type is met again. -/
theorem defer (h : types.Tallies calls r) (hkeys : types.KeysApart) {d : Descriptor}
    (hd : types.find? name = some d) (hactive : .named name ∈ r.active) :
    types.Tallies (calls ++ [⟨name, .deferred⟩])
      { r with toMemo := (r.toMemo.placeholder (.named name)).2 } := by
  have hwalked : Call.names .walked (calls ++ [⟨name, .deferred⟩]) = Call.names .walked calls :=
    Call.names_concat_other (by decide) _
  have hdeferred : Call.names .deferred (calls ++ [⟨name, .deferred⟩])
      = Call.names .deferred calls ++ [name] := Call.names_concat _
  have hfinished := r.toMemo.placeholder_finished (.named name)
  have hlookup := r.toMemo.lookup_placeholder (.named name)
  obtain ⟨hreuses, hresolutions⟩ := r.toMemo.placeholder_counts (.named name)
  have hmem : name ∈ Call.names .walked calls := by
    obtain ⟨other, hother, hkey⟩ :=
      List.mem_map.mp (h.walked.mem_iff.mpr (List.mem_append_left _ hactive))
    obtain ⟨e, he⟩ := h.described other hother
    exact hkeys.eq_of_key he hd hkey ▸ hother
  refine ⟨?_, ?_, ?_, ?_, ?_, ?_, ?_, ?_⟩
  · rw [hwalked, hfinished]
    exact h.walked
  · rw [hfinished]
    exact h.once
  · rw [hwalked]
    exact h.described
  · rw [hreuses, Call.names_concat_other (by decide)]
    exact h.reused
  · rw [hwalked, hdeferred]
    exact List.append_subset.mpr ⟨h.deferred, List.cons_subset.mpr ⟨hmem, List.nil_subset _⟩⟩
  · intro k
    rw [hdeferred, List.map_append, List.mem_append, ← h.handed k, hlookup]
    by_cases hk : k = .named name
    · simp [hk]
    · simp [hk]
  · intro k hk t ht
    rw [hlookup] at ht
    by_cases hkey : k = .named name
    · rw [if_pos hkey] at ht
      cases hbefore : r.resolutions.lookup (.named name) with
      | none =>
          rw [hbefore] at ht
          cases ht
          rw [hkey]
          rfl
      | some u =>
          rw [hbefore] at ht
          cases ht
          rw [hkey]
          exact h.pending _ hactive _ hbefore
    · rw [if_neg hkey] at ht
      exact h.pending k hk t ht
  · rw [hresolutions, hfinished, h.resolved]
    refine List.countP_congr fun k hk => ?_
    -- the type is active, so it is none of the finished ones
    have hother : k ≠ .named name := by
      rintro rfl
      exact (List.nodup_append.mp h.once).2.2 _ hactive _ hk rfl
    rw [hlookup, if_neg hother]

/-- A type becomes active. -/
theorem enter (h : types.Tallies calls r) {d : Descriptor} (hd : types.find? name = some d)
    (hfresh : .named name ∉ r.active) (hnone : r.finished.lookup (.named name) = none) :
    types.Tallies (calls ++ [⟨name, .walked⟩]) { r with active := .named name :: r.active } := by
  have hwalked : Call.names .walked (calls ++ [⟨name, .walked⟩])
      = Call.names .walked calls ++ [name] := Call.names_concat _
  have hdeferred :
      Call.names .deferred (calls ++ [⟨name, .walked⟩]) = Call.names .deferred calls :=
    Call.names_concat_other (by decide) _
  have hnew : .named name ∉ r.active ++ r.finished.map Prod.fst := by
    rw [List.mem_append]
    rintro (hactive | hfinished)
    · exact hfresh hactive
    · obtain ⟨t, ht⟩ := Lookup.exists_of_mem_keys hfinished
      rw [hnone] at ht
      cases ht
  refine ⟨?_, ?_, ?_, ?_, ?_, ?_, ?_, h.resolved⟩
  · rw [hwalked, List.map_append]
    exact (List.perm_append_comm).trans (h.walked.cons _)
  · exact List.nodup_cons.mpr ⟨hnew, h.once⟩
  · rw [hwalked]
    exact List.forall_mem_append.mpr ⟨h.described, List.forall_mem_singleton.mpr ⟨d, hd⟩⟩
  · rw [Call.names_concat_other (by decide)]
    exact h.reused
  · rw [hwalked, hdeferred]
    exact List.subset_append_of_subset_left _ h.deferred
  · rw [hdeferred]
    exact h.handed
  · refine List.forall_mem_cons.mpr ⟨fun t ht => ?_, h.pending⟩
    exact absurd (h.begun_of_handed (by rw [ht]; rfl)) hnew

/-- The active type that was entered last is finished. -/
theorem finish (h : types.Tallies calls r) {key : TypeKey} {active : List TypeKey}
    (hactive : r.active = key :: active) (t : DataType) :
    types.Tallies calls { r.leave key with
      toMemo := ((r.leave key).toMemo.finish key t).setResolution key t } := by
  obtain ⟨m, hm⟩ : ∃ m, m = ((r.leave key).toMemo.finish key t) := ⟨_, rfl⟩
  have honce := h.once
  rw [hactive, List.cons_append, List.nodup_cons, List.mem_append, not_or] at honce
  obtain ⟨⟨hfresh, hnone⟩, hrest⟩ := honce
  have hleft := Resolver.leave_active hfresh hactive
  have hopen : ∀ u, m.resolutions.lookup key = some u → u = .unresolved key := by
    rw [hm]
    exact h.pending key (hactive ▸ List.mem_cons_self)
  have hfinished : (m.setResolution key t).finished = (key, t) :: r.finished := by
    rw [Memo.setResolution_finished, hm]
    rfl
  have hlookup := Memo.lookup_setResolution (t := t) hopen
  have hsome : ∀ k, ((m.setResolution key t).resolutions.lookup k).isSome
      = (r.resolutions.lookup k).isSome := by
    intro k
    rw [hlookup, hm]
    by_cases hk : k = key
    · rw [if_pos hk, hk]
      exact Option.isSome_map
    · rw [if_neg hk]
      rfl
  have hmoved : (r.active ++ r.finished.map Prod.fst).Perm
      (active ++ ((key, t) :: r.finished).map Prod.fst) := by
    rw [hactive]
    exact List.perm_middle.symm
  rw [← hm]
  refine ⟨?_, ?_, h.described, ?_, h.deferred, ?_, ?_, ?_⟩
  · show ((Call.names .walked calls).map TypeKey.named).Perm
      ((r.leave key).active ++ (m.setResolution key t).finished.map Prod.fst)
    rw [hleft, hfinished]
    exact h.walked.trans hmoved
  · show ((r.leave key).active ++ (m.setResolution key t).finished.map Prod.fst).Nodup
    rw [hleft, hfinished]
    exact hmoved.nodup_iff.mp h.once
  · rw [Memo.setResolution_reuseCount, hm]
    exact h.reused
  · intro k
    rw [hsome]
    exact h.handed k
  · intro k hk u hu
    have hk : k ∈ active := hleft ▸ hk
    have hother : k ≠ key := fun hsame => hfresh (hsame ▸ hk)
    rw [hlookup, if_neg hother, hm] at hu
    exact h.pending k (hactive ▸ List.mem_cons_of_mem _ hk) u hu
  · have hcount := Memo.setResolution_resolutionCount (t := t) hopen
    have hbefore : m.resolutionCount = (r.finished.map Prod.fst).countP fun k =>
        (r.resolutions.lookup k).isSome := by
      rw [hm]
      exact h.resolved
    have hhanded : m.resolutions = r.resolutions := by
      rw [hm]
      rfl
    simp only [hsome, hcount, hfinished, List.map_cons, List.countP_cons, hbefore, hhanded]

end Tallies

/-! ### Every call is accounted for -/

mutual
/-- **Building a record type keeps the account of the calls.** -/
theorem Walks.tallies (hkeys : types.KeysApart) : ∀ {name : String} {r r' : Resolver}
    {calls : List Call} {t : DataType}, types.Walks name r calls t r' →
    ∀ {before : List Call}, types.Tallies before r → types.Tallies (before ++ calls) r'
  | name, _, _, _, _, .reused _ hfound, _, h => by
      obtain ⟨-, rfl⟩ := finished?_eq_some.mp hfound
      exact h.reuse name
  | _, _, _, _, _, .deferred hd hnone henter, _, h => by
      obtain ⟨-, rfl⟩ := finished?_eq_none.mp hnone
      obtain ⟨hactive, rfl⟩ := Resolver.enter_eq_false.mp henter
      exact h.defer hkeys hd hactive
  | _, _, _, _, _, .walked hd hnone henter hfields, _, h => by
      obtain ⟨hlookup, rfl⟩ := finished?_eq_none.mp hnone
      obtain ⟨hfresh, rfl⟩ := Resolver.enter_eq_true.mp henter
      rw [List.append_cons]
      exact (hfields.tallies hkeys (h.enter hd hfresh hlookup)).finish hfields.builds.eq.2 _
theorem WalksFields.tallies (hkeys : types.KeysApart) : ∀ {fields : List (String × String)}
    {r r' : Resolver} {calls : List Call} {attributes : List Attribute},
    types.WalksFields fields r calls attributes r' →
    ∀ {before : List Call}, types.Tallies before r → types.Tallies (before ++ calls) r'
  | _, _, _, _, _, .nil, _, h => by
      rw [List.append_nil]
      exact h
  | _, _, _, _, _, .primitive _ hrest, _, h => hrest.tallies hkeys h
  | _, _, _, _, _, .record _ hfirst hrest, _, h => by
      rw [← List.append_assoc]
      exact hrest.tallies hkeys (hfirst.tallies hkeys h)
end

namespace Tallies

/-- No type was walked twice. -/
theorem nodup_walked (h : types.Tallies calls r) : (Call.names .walked calls).Nodup :=
  List.Nodup.of_map TypeKey.named (h.walked.nodup_iff.mpr h.once)

/-- A type that is finished was walked. -/
theorem mem_walked (h : types.Tallies calls r) (hkeys : types.KeysApart) {d : Descriptor}
    (hd : types.find? name = some d) (hfinished : r.finished.lookup (.named name) = some t) :
    name ∈ Call.names .walked calls := by
  obtain ⟨other, hother, hkey⟩ := List.mem_map.mp
    (h.walked.mem_iff.mpr (List.mem_append_right _ (Lookup.mem_keys hfinished)))
  obtain ⟨e, he⟩ := h.described other hother
  exact hkeys.eq_of_key he hd hkey ▸ hother

/-- When nothing is being built, a type is behind the placeholder of every type that was deferred,
and each of these is counted once. -/
theorem resolutionCount_eq (h : types.Tallies calls r) (hkeys : types.KeysApart)
    (hnone : r.active = []) :
    r.resolutionCount = (Call.names .deferred calls).dedup.length := by
  have hfinished : ((Call.names .walked calls).map TypeKey.named).Perm
      (r.finished.map Prod.fst) := by
    have hwalked := h.walked
    rw [hnone] at hwalked
    exact hwalked
  have hmem : ∀ name ∈ Call.names .walked calls,
      (r.resolutions.lookup (.named name)).isSome = true ↔ name ∈ Call.names .deferred calls := by
    intro name hname
    rw [h.handed, List.mem_map]
    constructor
    · rintro ⟨other, hother, hkey⟩
      obtain ⟨d, hd⟩ := h.described name hname
      obtain ⟨e, he⟩ := h.described other (h.deferred hother)
      exact hkeys.eq_of_key he hd hkey ▸ hother
    · exact fun hother => ⟨name, hother, rfl⟩
  rw [h.resolved, ← hfinished.countP_eq, List.countP_map, List.countP_eq_length_filter]
  refine ((List.perm_ext_iff_of_nodup (h.nodup_walked.filter _) (List.nodup_dedup _)).mpr
    fun name => ?_).length_eq
  rw [List.mem_filter, List.mem_dedup]
  exact ⟨fun ⟨hname, hhanded⟩ => (hmem name hname).mp hhanded,
    fun hname => ⟨h.deferred hname, (hmem name (h.deferred hname)).mpr hname⟩⟩

end Tallies

/-- Built afresh, a type leads to those that were walked. -/
theorem Walks.mem_walked_iff (hkeys : types.KeysApart) (h : types.Walks name .empty calls t r)
    (other : String) : other ∈ Call.names .walked calls ↔ types.Leads name other := by
  constructor
  · exact fun hother => (h.leads _ (Call.exists_of_mem_names hother)).1
  · intro hleads
    have hbuild := h.builds.eq.1
    obtain ⟨d, hd, -⟩ := build_cases hbuild
    have hempty : types.Kept .empty [] fun _ => False := types.kept_empty
    obtain ⟨hkept, -, hbegun⟩ := kept_build hkeys _ rfl hempty (fun k hk => by cases hk) hbuild
    obtain ⟨u, hu⟩ := hbegun.resolve_left (by simp)
    obtain ⟨⟨e, he⟩, v, hv⟩ := (hkept.leads hkeys hd hu hleads).resolve_right (by simp)
    exact (h.tallies hkeys types.tallies_empty).mem_walked hkeys he hv

end TypeFactory

namespace Creation

/-- **Each description is walked once.**

In a fresh scope a record type is asked for and is built.  It is built with certain calls and no
others.  The types that were walked are those that the name leads to, each of them once.  There is
one call for the name itself and one for each field of these types that names a record.  Every call
walked a type, found it finished or found it under construction: what was found finished is what
the resolver counts as reused, and the types that were found under construction, each of them
once, are what it counts as resolved.  Behind every placeholder there is a record in the end. -/
theorem walks_each_once {types : TypeFactory} (hkeys : types.KeysApart) {name : String}
    {t : DataType} {b : Binding}
    (hok : (Creation.record name).run types (some .empty) = (.ok t, b)) :
    ∃ calls r, b = some r ∧ types.Walks name .empty calls t r ∧
      (∀ calls' t' r', types.Walks name .empty calls' t' r' → calls' = calls) ∧
      (Call.names .walked calls).Nodup ∧
      (∀ other, other ∈ Call.names .walked calls ↔ types.Leads name other) ∧
      calls.length = 1 + total ((Call.names .walked calls).map types.references) ∧
      total ((Call.names .walked calls).map types.references) + 1
        = (Call.names .walked calls).length + r.reuseCount
          + (Call.names .deferred calls).length ∧
      r.resolutionCount = (Call.names .deferred calls).dedup.length ∧
      ∀ k u, r.resolutions.lookup k = some u → ∃ attributes, u = .struct attributes := by
  cases hbuilt : types.createStruct name .empty with
  | mk result r =>
      have hrun : (Creation.record name).run types (some .empty) = (result, some r) := by
        show Binding.withResolver (types.createStruct name) (some .empty) = _
        simp only [Binding.withResolver, Binding.inScope, hbuilt]
      rw [hrun] at hok
      cases hok
      have hbuilds := TypeFactory.builds_iff.mpr hbuilt
      have hactive : r.active = [] := hbuilds.eq.2
      obtain ⟨calls, hwalks⟩ := hbuilds.walks
      have htallies : types.Tallies calls r := hwalks.tallies hkeys types.tallies_empty
      have hlength := hwalks.length
      obtain ⟨hrecorded, -⟩ := types.recorded_build _ rfl types.recorded_empty hbuilds.eq.1
      refine ⟨calls, r, rfl, hwalks, fun calls' t' r' h => (hwalks.unique h).1,
        htallies.nodup_walked, hwalks.mem_walked_iff hkeys, hlength, ?_,
        htallies.resolutionCount_eq hkeys hactive, ?_⟩
      · have hfates := Call.length_names calls
        rw [htallies.reused]
        unfold TypeFactory.walkedReferences at hlength
        omega
      · intro k u hu
        rcases hrecorded.resolved k u hu with hfinished | ⟨-, hopen⟩
        · obtain ⟨d, attributes, -, -, rfl, -⟩ := hrecorded.finished k u hfinished
          exact ⟨attributes, rfl⟩
        · exact absurd hopen List.not_mem_nil

/-- An office with two rooms of one kind, whose head belongs to an office. -/
theorem walks_each_once_of_offices :
    ∃ (types : TypeFactory) (calls : List Call) (t : DataType) (r : Resolver),
      types = .ofList [⟨"Office", [("first", "Room"), ("second", "Room"), ("head", "Emp")]⟩,
        ⟨"Room", [("id", "int")]⟩, ⟨"Emp", [("office", "Office")]⟩] ∧
      types.KeysApart ∧ types.Walks "Office" .empty calls t r ∧ r.reuseCount = 1 ∧
      (Call.names .deferred calls).dedup.length = 1 ∧
      calls.length = (Call.names .walked calls).length + 1
        + (Call.names .deferred calls).length := by
  let types : TypeFactory :=
    .ofList [⟨"Office", [("first", "Room"), ("second", "Room"), ("head", "Emp")]⟩,
      ⟨"Room", [("id", "int")]⟩, ⟨"Emp", [("office", "Office")]⟩]
  have hkeys : types.KeysApart := by
    have hroom : TypeKey.named "Room" ≠ TypeKey.named "Office" := by decide +kernel
    have hemp : TypeKey.named "Emp" ≠ TypeKey.named "Office" := by decide +kernel
    have hother : TypeKey.named "Emp" ≠ TypeKey.named "Room" := by decide +kernel
    have hall : types.descriptors = [⟨"Emp", [("office", "Office")]⟩, ⟨"Room", [("id", "int")]⟩,
        ⟨"Office", [("first", "Room"), ("second", "Room"), ("head", "Emp")]⟩] := rfl
    unfold TypeFactory.KeysApart
    rw [hall]
    simp [hroom, hemp, hother, Ne.symm hroom, Ne.symm hemp, Ne.symm hother]
  have hok : ∃ t, ((Creation.record "Office").run types (some .empty)).1 = .ok t := ⟨_, by cbv⟩
  have hcounts : ((Creation.record "Office").run types (some .empty)).2.map
      (fun r => (r.reuseCount, r.resolutionCount)) = some (1, 1) := by cbv
  obtain ⟨t, ht⟩ := hok
  obtain ⟨calls, r, hr, hwalks, -, -, -, hlength, htotal, hresolved, -⟩ :=
    walks_each_once hkeys (Prod.ext ht rfl : _ = (_, _))
  have hboth := (congrArg (Option.map fun r : Resolver => (r.reuseCount, r.resolutionCount))
    hr).symm.trans hcounts
  obtain ⟨hreuse, hresolution⟩ := Prod.mk.inj (Option.some.inj hboth)
  refine ⟨types, calls, t, r, rfl, hkeys, hwalks, hreuse, by rw [← hresolved, hresolution], ?_⟩
  rw [hreuse] at htotal
  omega

end Creation

end StreamQuery
