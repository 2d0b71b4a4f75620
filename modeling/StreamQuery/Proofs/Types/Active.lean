/-
Building a record type with the active types kept by the resolver.

`TypeFactory.build` passes the active types down, so nothing has to be undone.  A resolver has
one set of them: a type is entered before its fields are built and left after that, and it has
to be left also when its fields could not be built.  `Builds` is that way of building, step by
step, with the resolver as it is at each of them.

The two agree.  What a type is left with is the resolver it was entered with, so leaving takes
out the one key that entering put in, and the active types are what they were.  That building
comes to an end is proved here of the steps as well: a type is only entered if it is not active,
so with each type that is entered fewer descriptions are left that can be.
-/
import StreamQuery.Proofs.Types.Expansion

namespace StreamQuery

namespace Resolver

variable {r r' : Resolver} {key : TypeKey}

theorem enter_eq_true : r.enter key = (true, r') ↔
    key ∉ r.active ∧ r' = { r with active := key :: r.active } := by
  unfold enter
  by_cases hactive : key ∈ r.active
  · simp [hactive]
  · simp [hactive, eq_comm]

theorem enter_eq_false : r.enter key = (false, r') ↔ key ∈ r.active ∧ r' = r := by
  unfold enter
  by_cases hactive : key ∈ r.active
  · simp [hactive, eq_comm]
  · simp [hactive]

/-- Leaving undoes entering. -/
theorem leave_active {active : List TypeKey} (hfresh : key ∉ active)
    (h : r.active = key :: active) : (r.leave key).active = active := by
  unfold leave
  rw [h, List.filter_cons_of_neg (by simp), List.filter_eq_self]
  intro k hk
  rw [bne_iff_ne]
  rintro rfl
  exact hfresh hk

end Resolver

namespace TypeFactory

mutual
/-- A record type is built, or cannot be, and the resolver is left behind. -/
inductive Builds (types : TypeFactory) :
    String → Resolver → Except UnknownType DataType → Resolver → Prop
  | unknown {name : String} {r : Resolver} (hnone : types.find? name = none) :
      Builds types name r (.error ⟨name⟩) r
  | finished {name : String} {d : Descriptor} {r : Resolver} {t : DataType} {m : Memo}
      (hd : types.find? name = some d)
      (hfound : r.toMemo.finished? (.named name) = (some t, m)) :
      Builds types name r (.ok t) { r with toMemo := m }
  | active {name : String} {d : Descriptor} {r r₁ : Resolver} {m : Memo}
      (hd : types.find? name = some d) (hnone : r.toMemo.finished? (.named name) = (none, m))
      (henter : Resolver.enter { r with toMemo := m } (.named name) = (false, r₁)) :
      Builds types name r (.ok (r₁.toMemo.placeholder (.named name)).1)
        { r₁ with toMemo := (r₁.toMemo.placeholder (.named name)).2 }
  | failed {name : String} {d : Descriptor} {r r₁ r₂ : Resolver} {m : Memo} {u : UnknownType}
      (hd : types.find? name = some d) (hnone : r.toMemo.finished? (.named name) = (none, m))
      (henter : Resolver.enter { r with toMemo := m } (.named name) = (true, r₁))
      (hfields : BuildsFields types d.fields r₁ (.error u) r₂) :
      Builds types name r (.error u) (r₂.leave (.named name))
  | built {name : String} {d : Descriptor} {r r₁ r₂ : Resolver} {m : Memo}
      {attributes : List Attribute} (hd : types.find? name = some d)
      (hnone : r.toMemo.finished? (.named name) = (none, m))
      (henter : Resolver.enter { r with toMemo := m } (.named name) = (true, r₁))
      (hfields : BuildsFields types d.fields r₁ (.ok attributes) r₂) :
      Builds types name r (.ok (.struct attributes))
        { r₂.leave (.named name) with
          toMemo := ((r₂.leave (.named name)).toMemo.finish (.named name)
            (.struct attributes)).setResolution (.named name) (.struct attributes) }
/-- Fields are built in order, up to the first that cannot be. -/
inductive BuildsFields (types : TypeFactory) :
    List (String × String) → Resolver → Except UnknownType (List Attribute) → Resolver → Prop
  | nil {r : Resolver} : BuildsFields types [] r (.ok []) r
  | primitive {field : String × String} {rest : List (String × String)} {r r' : Resolver}
      {t : DataType} {result : Except UnknownType (List Attribute)}
      (ht : DataType.ofName? field.2 = some t) (hrest : BuildsFields types rest r result r') :
      BuildsFields types (field :: rest) r (result.map (⟨field.1, t⟩ :: ·)) r'
  | failed {field : String × String} {rest : List (String × String)} {r r' : Resolver}
      {u : UnknownType} (hnone : DataType.ofName? field.2 = none)
      (hfirst : Builds types field.2 r (.error u) r') :
      BuildsFields types (field :: rest) r (.error u) r'
  | record {field : String × String} {rest : List (String × String)} {r r₁ r' : Resolver}
      {t : DataType} {result : Except UnknownType (List Attribute)}
      (hnone : DataType.ofName? field.2 = none) (hfirst : Builds types field.2 r (.ok t) r₁)
      (hrest : BuildsFields types rest r₁ result r') :
      BuildsFields types (field :: rest) r (result.map (⟨field.1, t⟩ :: ·)) r'
end

variable {types : TypeFactory} {name : String} {d : Descriptor} {active : List TypeKey}
  {m m' : Memo} {u : UnknownType}

/-! ### Equations of building -/

theorem build_of_unknown (hnone : types.find? name = none) :
    types.build active name m = (.error ⟨name⟩, m) := by
  rw [build]
  split
  · rfl
  · rename_i hd
    rw [hnone] at hd
    cases hd

/-- A record type whose fields cannot be built cannot be built. -/
theorem build_of_failure (hd : types.find? name = some d)
    (hnone : m.finished.lookup (.named name) = none) (hfresh : .named name ∉ active)
    (hfields : types.buildFields (.named name :: active) d.fields m = (.error u, m')) :
    types.build active name m = (.error u, m') := by
  rw [build]
  split
  · rename_i hnot
    rw [hd] at hnot
    cases hnot
  · rename_i e he
    rw [hd] at he
    cases he
    simp only [Memo.finished?, hnone, dif_neg hfresh, hfields]

theorem buildFields_of_primitive {field : String × String} {rest : List (String × String)}
    {t : DataType} (ht : DataType.ofName? field.2 = some t) :
    types.buildFields active (field :: rest) m
      = ((types.buildFields active rest m).1.map (⟨field.1, t⟩ :: ·),
        (types.buildFields active rest m).2) := by
  rw [buildFields]
  simp only [ht]
  split
  · rename_i h
    rw [h]
    rfl
  · rename_i h
    rw [h]
    rfl

theorem buildFields_of_failure {field : String × String} {rest : List (String × String)}
    (hnone : DataType.ofName? field.2 = none)
    (hfirst : types.build active field.2 m = (.error u, m')) :
    types.buildFields active (field :: rest) m = (.error u, m') := by
  rw [buildFields]
  simp only [hnone, hfirst]

theorem buildFields_of_record {field : String × String} {rest : List (String × String)}
    {t : DataType} (hnone : DataType.ofName? field.2 = none)
    (hfirst : types.build active field.2 m = (.ok t, m')) :
    types.buildFields active (field :: rest) m
      = ((types.buildFields active rest m').1.map (⟨field.1, t⟩ :: ·),
        (types.buildFields active rest m').2) := by
  rw [buildFields]
  simp only [hnone, hfirst]
  split
  · rename_i h
    rw [h]
    rfl
  · rename_i h
    rw [h]
    rfl

theorem finished?_eq_none {key : TypeKey} :
    m.finished? key = (none, m') ↔ m.finished.lookup key = none ∧ m' = m := by
  unfold Memo.finished?
  cases m.finished.lookup key with
  | none => simp [eq_comm]
  | some t => simp

theorem finished?_eq_some {key : TypeKey} {t : DataType} :
    m.finished? key = (some t, m') ↔
      m.finished.lookup key = some t ∧ m' = { m with reuseCount := m.reuseCount + 1 } := by
  unfold Memo.finished?
  cases m.finished.lookup key with
  | none => simp
  | some u => simp [eq_comm]

/-! ### The two ways of building agree -/

mutual
/-- Building step by step gives what building gives, and the active types are what they were. -/
theorem Builds.eq : ∀ {name : String} {r r' : Resolver} {result : Except UnknownType DataType},
    types.Builds name r result r' →
    types.build r.active name r.toMemo = (result, r'.toMemo) ∧ r'.active = r.active
  | _, _, _, _, .unknown hnone => ⟨build_of_unknown hnone, rfl⟩
  | _, _, _, _, .finished hd hfound => by
      obtain ⟨hlookup, rfl⟩ := finished?_eq_some.mp hfound
      exact ⟨build_of_finished hd hlookup, rfl⟩
  | _, _, _, _, .active hd hnone henter => by
      obtain ⟨hlookup, rfl⟩ := finished?_eq_none.mp hnone
      obtain ⟨hactive, rfl⟩ := Resolver.enter_eq_false.mp henter
      refine ⟨?_, rfl⟩
      rw [build_of_active hd hlookup hactive, Memo.placeholder_fst]
  | _, _, _, _, .failed hd hnone henter hfields => by
      obtain ⟨hbuild, hactive⟩ := hfields.eq
      obtain ⟨hlookup, rfl⟩ := finished?_eq_none.mp hnone
      obtain ⟨hfresh, rfl⟩ := Resolver.enter_eq_true.mp henter
      exact ⟨build_of_failure hd hlookup hfresh hbuild, Resolver.leave_active hfresh hactive⟩
  | _, _, _, _, .built hd hnone henter hfields => by
      obtain ⟨hbuild, hactive⟩ := hfields.eq
      obtain ⟨hlookup, rfl⟩ := finished?_eq_none.mp hnone
      obtain ⟨hfresh, rfl⟩ := Resolver.enter_eq_true.mp henter
      exact ⟨build_of_fields hd hlookup hfresh hbuild, Resolver.leave_active hfresh hactive⟩
theorem BuildsFields.eq : ∀ {fields : List (String × String)} {r r' : Resolver}
    {result : Except UnknownType (List Attribute)}, types.BuildsFields fields r result r' →
    types.buildFields r.active fields r.toMemo = (result, r'.toMemo) ∧ r'.active = r.active
  | _, _, _, _, .nil => ⟨by rw [buildFields], rfl⟩
  | _, _, _, _, .primitive ht hrest => by
      obtain ⟨hbuild, hactive⟩ := hrest.eq
      refine ⟨?_, hactive⟩
      rw [buildFields_of_primitive ht, hbuild]
  | _, _, _, _, .failed hnone hfirst => by
      obtain ⟨hbuild, hactive⟩ := hfirst.eq
      exact ⟨buildFields_of_failure hnone hbuild, hactive⟩
  | _, _, _, _, .record hnone hfirst hrest => by
      obtain ⟨hbuild, hactive⟩ := hfirst.eq
      obtain ⟨hbuilds, hactives⟩ := hrest.eq
      rw [hactive] at hbuilds hactives
      refine ⟨?_, hactives⟩
      rw [buildFields_of_record hnone hbuild, hbuilds]
end

/-! ### Building ends -/

theorem buildsFields_total
    (hbuild : ∀ (name : String) (r : Resolver), r.active = active →
      ∃ result r', types.Builds name r result r') (fields : List (String × String)) :
    ∀ r : Resolver, r.active = active → ∃ result r', types.BuildsFields fields r result r' := by
  induction fields with
  | nil => exact fun r _ => ⟨_, _, .nil⟩
  | cons field rest ih =>
      intro r hr
      cases hp : DataType.ofName? field.2 with
      | some t =>
          obtain ⟨result, r', hrest⟩ := ih r hr
          exact ⟨_, _, .primitive hp hrest⟩
      | none =>
          obtain ⟨first, r₁, hfirst⟩ := hbuild field.2 r hr
          cases first with
          | error u => exact ⟨_, _, .failed hp hfirst⟩
          | ok t =>
              obtain ⟨result, r', hrest⟩ := ih r₁ (hfirst.eq.2.trans hr)
              exact ⟨_, _, .record hp hfirst hrest⟩

/-- **Building step by step comes to an end**, whatever is recorded and whatever is active.  The
induction is on the descriptions that are not active. -/
theorem builds_total (types : TypeFactory) : ∀ (left : Nat) (name : String) (r : Resolver),
    types.inactive r.active = left → ∃ result r', types.Builds name r result r' := by
  intro left
  induction left using Nat.strongRecOn with
  | _ left ih =>
      intro name r hleft
      cases hd : types.find? name with
      | none => exact ⟨_, _, .unknown hd⟩
      | some d =>
          cases hfound : r.toMemo.finished? (.named name) with
          | mk found m =>
              cases found with
              | some t => exact ⟨_, _, .finished hd hfound⟩
              | none =>
                  cases henter : Resolver.enter { r with toMemo := m } (.named name) with
                  | mk entered r₁ =>
                      cases entered with
                      | false => exact ⟨_, _, .active hd hfound henter⟩
                      | true =>
                          obtain ⟨hfresh, rfl⟩ := Resolver.enter_eq_true.mp henter
                          have hless : types.inactive (.named name :: r.active) < left :=
                            hleft ▸ inactive_lt hd hfresh
                          obtain ⟨result, r₂, hfields⟩ := buildsFields_total
                            (fun other r' hr' => ih _ hless other r' (congrArg _ hr'))
                            d.fields { r with toMemo := m, active := .named name :: r.active } rfl
                          cases result with
                          | error u => exact ⟨_, _, .failed hd hfound henter hfields⟩
                          | ok attributes => exact ⟨_, _, .built hd hfound henter hfields⟩

/-- Building with a resolver is building step by step. -/
theorem builds_iff {r r' : Resolver} {result : Except UnknownType DataType} :
    types.Builds name r result r' ↔ types.createStruct name r = (result, r') := by
  have hrun : ∀ {result r'}, types.Builds name r result r' →
      types.createStruct name r = (result, r') := by
    intro result r' h
    obtain ⟨hbuild, hactive⟩ := h.eq
    unfold createStruct
    rw [hbuild, ← hactive]
  refine ⟨hrun, fun h => ?_⟩
  obtain ⟨result', r'', hbuilds⟩ := types.builds_total _ name r rfl
  have hsame := (hrun hbuilds).symm.trans h
  cases hsame
  exact hbuilds

end TypeFactory

end StreamQuery
