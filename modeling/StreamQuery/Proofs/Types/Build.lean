/-
What building a record type leaves behind.

Types that refer to each other are finished one inside the other, and a type that is
finished early holds placeholders for those that are finished after it.  What can be
said of such a type is said relative to the memo: the type of a field is the primitive
that it names, or the finished type of the record that it names, or a placeholder that
was handed out for it.

`Recorded` says so of all finished types, and of every placeholder that it either has
the finished type behind it or is that of an active type.  Both survive while the memo
grows: a finished type stays, a placeholder that was handed out stays, and no active
type is finished by anybody but the one who made it active.

The induction is on the descriptions that are not active; inside, on the fields.
-/
import Mathlib.Data.List.Forall2
import StreamQuery.Types.Factory

namespace StreamQuery

namespace Memo

/-- A type is the finished type of the record of a name, or a placeholder for it. -/
def StandsFor (m : Memo) (t : DataType) (name : String) : Prop :=
  m.finished.lookup (.named name) = some t ∨
    t = .unresolved (.named name) ∧ ∃ u, m.resolutions.lookup (.named name) = some u

/-- What stays while types are built. -/
structure Grows (m m' : Memo) (active : List TypeKey) : Prop where
  finished : ∀ k t, m.finished.lookup k = some t → m'.finished.lookup k = some t
  active : ∀ k ∈ active, m.finished.lookup k = none → m'.finished.lookup k = none
  handed : ∀ k t, m.resolutions.lookup k = some t → ∃ u, m'.resolutions.lookup k = some u

variable {m m' m'' : Memo} {active : List TypeKey} {k : TypeKey} {t : DataType} {name : String}

theorem Grows.refl (m : Memo) (active : List TypeKey) : m.Grows m active :=
  ⟨fun _ _ h => h, fun _ _ h => h, fun _ t h => ⟨t, h⟩⟩

theorem Grows.trans (h : m.Grows m' active) (h' : m'.Grows m'' active) : m.Grows m'' active where
  finished k t ht := h'.finished k t (h.finished k t ht)
  active k hk hnone := h'.active k hk (h.active k hk hnone)
  handed k t ht := by
    obtain ⟨u, hu⟩ := h.handed k t ht
    exact h'.handed k u hu

theorem Grows.mono {more : List TypeKey} (h : m.Grows m' more) (hsub : active ⊆ more) :
    m.Grows m' active :=
  ⟨h.finished, fun k hk => h.active k (hsub hk), h.handed⟩

theorem StandsFor.mono (hm : m.Grows m' active) (h : m.StandsFor t name) :
    m'.StandsFor t name := by
  rcases h with hfinished | ⟨rfl, u, hu⟩
  · exact .inl (hm.finished _ _ hfinished)
  · exact .inr ⟨rfl, hm.handed _ _ hu⟩

theorem lookup_finish (m : Memo) (key k : TypeKey) (t : DataType) :
    (m.finish key t).finished.lookup k = if k = key then some t else m.finished.lookup k := by
  unfold finish
  rw [List.lookup_cons]
  by_cases hk : k = key
  · simp [hk]
  · simp [hk, beq_eq_false_iff_ne.mpr hk]

theorem resolve_of_type (m : Memo) (ht : t.isUnresolved = false) : m.resolve t = t := by
  cases t with
  | unresolved key => cases ht
  | _ => rfl

theorem placeholder_fst (m : Memo) (key : TypeKey) : (m.placeholder key).1 = .unresolved key := by
  unfold placeholder
  split <;> rfl

theorem placeholder_finished (m : Memo) (key : TypeKey) :
    (m.placeholder key).2.finished = m.finished := by
  unfold placeholder
  split <;> rfl

theorem setResolution_finished (m : Memo) (key : TypeKey) (t : DataType) :
    (m.setResolution key t).finished = m.finished := by
  unfold setResolution
  split <;> rfl

/-- A type is put behind a placeholder that was handed out and has none behind it yet. -/
theorem lookup_setResolution_eq (m : Memo) (k : TypeKey) (t : DataType) (j : TypeKey) :
    (m.setResolution k t).resolutions.lookup j
      = if j = k then (m.resolutions.lookup k).map fun u => if u.isUnresolved then t else u
        else m.resolutions.lookup j := by
  by_cases hj : j = k
  · rw [if_pos hj, hj]
    unfold setResolution
    cases hlookup : m.resolutions.lookup k with
    | none => exact hlookup
    | some u => cases u <;> simp [hlookup, DataType.isUnresolved]
  · rw [if_neg hj]
    unfold setResolution
    split
    · simp [List.lookup_cons, beq_eq_false_iff_ne.mpr hj]
    · rfl

/-- A type is put behind its placeholder if that was handed out; nothing may be behind it yet. -/
theorem lookup_setResolution (h : ∀ u, m.resolutions.lookup k = some u → u = .unresolved k)
    (j : TypeKey) : (m.setResolution k t).resolutions.lookup j
      = if j = k then (m.resolutions.lookup k).map fun _ => t else m.resolutions.lookup j := by
  rw [lookup_setResolution_eq]
  cases hlookup : m.resolutions.lookup k with
  | none => rfl
  | some u =>
      obtain rfl := h u hlookup
      rfl

end Memo

namespace TypeFactory

variable {types : TypeFactory} {m m' : Memo} {active : List TypeKey} {name : String}
  {t : DataType}

/-- An attribute is what a field describes. -/
def Describes (types : TypeFactory) (m : Memo) (field : String × String) (a : Attribute) : Prop :=
  a.name = field.1 ∧
    match DataType.ofName? field.2 with
    | some p => a.type = p
    | none => (∃ d, types.find? field.2 = some d) ∧ m.StandsFor a.type field.2

/-- What has been recorded while the types in `active` are being built. -/
structure Recorded (types : TypeFactory) (m : Memo) (active : List TypeKey) : Prop where
  /-- A finished type is the record of a description. -/
  finished : ∀ k t, m.finished.lookup k = some t → ∃ d attributes, types.find? d.name = some d ∧
    k = .named d.name ∧ t = .struct attributes ∧
    List.Forall₂ (types.Describes m) d.fields attributes
  /-- A placeholder has a finished type behind it, or is that of a type that is being built. -/
  resolved : ∀ k t, m.resolutions.lookup k = some t →
    m.finished.lookup k = some t ∨ t = .unresolved k ∧ k ∈ active
  /-- A type that is being built is not finished. -/
  active : ∀ k ∈ active, m.finished.lookup k = none

theorem Describes.mono (hm : m.Grows m' active) {field : String × String} {a : Attribute}
    (h : types.Describes m field a) : types.Describes m' field a := by
  obtain ⟨hname, htype⟩ := h
  refine ⟨hname, ?_⟩
  cases hp : DataType.ofName? field.2 with
  | some p => rw [hp] at htype; exact htype
  | none =>
      rw [hp] at htype
      exact ⟨htype.1, htype.2.mono hm⟩

/-- What has been recorded before the first type is built. -/
theorem recorded_empty (types : TypeFactory) : types.Recorded .empty [] where
  finished k t h := by cases h
  resolved k t h := by cases h
  active k h := by cases h

/-- A type becomes active that is not finished. -/
theorem Recorded.enter (hr : types.Recorded m active)
    (hnone : m.finished.lookup (.named name) = none) :
    types.Recorded m (.named name :: active) where
  finished := hr.finished
  resolved k u hu := (hr.resolved k u hu).imp_right fun hopen =>
    ⟨hopen.1, List.mem_cons_of_mem _ hopen.2⟩
  active := List.forall_mem_cons.mpr ⟨hnone, hr.active⟩

/-! ### Steps of building -/

/-- A record type is finished already, or it is active, or its fields are built. -/
theorem build_cases (h : types.build active name m = (.ok t, m')) :
    ∃ d, types.find? name = some d ∧
      ((m.finished.lookup (.named name) = some t ∧
          m' = { m with reuseCount := m.reuseCount + 1 }) ∨
        (.named name ∈ active ∧ (t, m') = m.placeholder (.named name)) ∨
        (.named name ∉ active ∧ m.finished.lookup (.named name) = none ∧ ∃ attributes m₁,
          types.buildFields (.named name :: active) d.fields m = (.ok attributes, m₁) ∧
          t = .struct attributes ∧
          m' = (m₁.finish (.named name) t).setResolution (.named name) t)) := by
  rw [build] at h
  split at h
  · cases h
  · rename_i d hd
    refine ⟨d, hd, ?_⟩
    unfold Memo.finished? at h
    cases hfinished : m.finished.lookup (.named name) with
    | some u =>
        simp only [hfinished] at h
        cases h
        exact .inl ⟨rfl, rfl⟩
    | none =>
        simp only [hfinished] at h
        split at h
        · rename_i hactive
          refine .inr (.inl ⟨hactive, ?_⟩)
          cases h
          rfl
        · rename_i hfresh
          split at h
          · cases h
          · rename_i attributes m₁ hfields
            cases h
            exact .inr (.inr ⟨hfresh, rfl, attributes, m₁, hfields, rfl, rfl⟩)

theorem buildFields_cons {field : String × String} {rest : List (String × String)}
    {attributes : List Attribute}
    (h : types.buildFields active (field :: rest) m = (.ok attributes, m')) :
    ∃ t m₁ more, attributes = ⟨field.1, t⟩ :: more ∧
      types.buildFields active rest m₁ = (.ok more, m') ∧
      match DataType.ofName? field.2 with
      | some p => t = p ∧ m₁ = m
      | none => types.build active field.2 m = (.ok t, m₁) := by
  rw [buildFields] at h
  cases hp : DataType.ofName? field.2 with
  | some p =>
      simp only [hp] at h
      split at h
      · cases h
      · rename_i more m₂ hrest
        cases h
        exact ⟨p, m, more, rfl, hrest, rfl, rfl⟩
  | none =>
      simp only [hp] at h
      split at h
      · cases h
      · rename_i t m₁ hbuild
        split at h
        · cases h
        · rename_i more m₂ hrest
          cases h
          exact ⟨t, m₁, more, rfl, hrest, hbuild⟩

/-- Handing out the placeholder of an active type. -/
theorem recorded_placeholder {key : TypeKey} (hr : types.Recorded m active)
    (hkey : key ∈ active) : types.Recorded (m.placeholder key).2 active ∧
      m.Grows (m.placeholder key).2 active ∧
      ∃ u, (m.placeholder key).2.resolutions.lookup key = some u := by
  unfold Memo.placeholder
  cases hlookup : m.resolutions.lookup key with
  | some u => exact ⟨hr, .refl m active, u, hlookup⟩
  | none =>
      have hnew : ∀ k, List.lookup k ((key, DataType.unresolved key) :: m.resolutions)
          = if k = key then some (.unresolved key) else m.resolutions.lookup k := by
        intro k
        rw [List.lookup_cons]
        by_cases hk : k = key
        · simp [hk]
        · simp [hk, beq_eq_false_iff_ne.mpr hk]
      have hgrows : m.Grows { m with resolutions := (key, .unresolved key) :: m.resolutions }
          active := by
        refine ⟨fun _ _ h => h, fun _ _ h => h, ?_⟩
        intro k t ht
        refine ⟨if k = key then .unresolved key else t, ?_⟩
        simp only [hnew, ht]
        split <;> rfl
      refine ⟨⟨?_, ?_, hr.active⟩, hgrows, .unresolved key, ?_⟩
      · intro k t ht
        obtain ⟨d, attributes, hd, hk, hstruct, hfields⟩ := hr.finished k t ht
        exact ⟨d, attributes, hd, hk, hstruct, hfields.imp fun _ _ h => h.mono hgrows⟩
      · intro k t ht
        simp only [hnew] at ht
        by_cases hk : k = key
        · rw [if_pos hk] at ht
          cases ht
          exact .inr ⟨by rw [hk], hk ▸ hkey⟩
        · rw [if_neg hk] at ht
          exact hr.resolved k t ht
      · simp only [hnew, if_true]

/-- Finishing an active type, whose fields are built. -/
theorem recorded_finish {d : Descriptor} {attributes : List Attribute}
    (hd : types.find? name = some d) (hr : types.Recorded m (.named name :: active))
    (hfresh : TypeKey.named name ∉ active)
    (hfields : List.Forall₂ (types.Describes m) d.fields attributes) :
    types.Recorded ((m.finish (.named name) (.struct attributes)).setResolution (.named name)
        (.struct attributes)) active ∧
      m.Grows ((m.finish (.named name) (.struct attributes)).setResolution (.named name)
        (.struct attributes)) active ∧
      ((m.finish (.named name) (.struct attributes)).setResolution (.named name)
        (.struct attributes)).finished.lookup (.named name) = some (.struct attributes) := by
  obtain ⟨m', hm'⟩ : ∃ m', m' = (m.finish (.named name) (.struct attributes)).setResolution
    (.named name) (.struct attributes) := ⟨_, rfl⟩
  rw [← hm']
  have hnone := hr.active (.named name) List.mem_cons_self
  have hfinished : ∀ k, m'.finished.lookup k
      = if k = .named name then some (.struct attributes) else m.finished.lookup k := by
    intro k
    rw [hm', Memo.setResolution_finished, Memo.lookup_finish]
  -- a placeholder that was handed out has nothing behind it yet
  have hopen : ∀ u, m.resolutions.lookup (.named name) = some u →
      u = .unresolved (.named name) := by
    intro u hu
    rcases hr.resolved _ u hu with hfin | ⟨hu', -⟩
    · rw [hnone] at hfin
      cases hfin
    · exact hu'
  have hresolutions : ∀ k, m'.resolutions.lookup k = if k = .named name
      then (m.resolutions.lookup (.named name)).map fun _ => .struct attributes
      else m.resolutions.lookup k := by
    intro k
    rw [hm']
    exact Memo.lookup_setResolution (m := m.finish (.named name) (.struct attributes)) hopen k
  have hgrows : m.Grows m' active := by
    refine ⟨?_, ?_, ?_⟩
    · intro k t ht
      rw [hfinished, if_neg]
      · exact ht
      · rintro rfl
        rw [hnone] at ht
        cases ht
    · intro k hk hk'
      rw [hfinished, if_neg]
      · exact hk'
      · rintro rfl
        exact hfresh hk
    · intro k u hu
      rw [hresolutions]
      by_cases hk : k = .named name
      · rw [if_pos hk, ← hk, hu]
        exact ⟨_, rfl⟩
      · rw [if_neg hk]
        exact ⟨u, hu⟩
  refine ⟨⟨?_, ?_, ?_⟩, hgrows, ?_⟩
  · intro k t ht
    rw [hfinished] at ht
    by_cases hk : k = .named name
    · rw [if_pos hk] at ht
      cases ht
      have hname := find?_name hd
      exact ⟨d, attributes, by rw [hname]; exact hd, by rw [hname]; exact hk, rfl,
        hfields.imp fun _ _ h => h.mono hgrows⟩
    · rw [if_neg hk] at ht
      obtain ⟨e, attributes', he, hk', hstruct, hfields'⟩ := hr.finished k t ht
      exact ⟨e, attributes', he, hk', hstruct, hfields'.imp fun _ _ h => h.mono hgrows⟩
  · intro k u hu
    rw [hfinished]
    rw [hresolutions] at hu
    by_cases hk : k = .named name
    · rw [if_pos hk] at hu ⊢
      obtain ⟨-, -, rfl⟩ := Option.map_eq_some_iff.mp hu
      exact .inl rfl
    · rw [if_neg hk] at hu ⊢
      rcases hr.resolved k u hu with hfin | ⟨hu', hact⟩
      · exact .inl hfin
      · rcases List.mem_cons.mp hact with hk' | hact
        · exact absurd hk' hk
        · exact .inr ⟨hu', hact⟩
  · intro k hk
    exact hgrows.active k hk (hr.active k (List.mem_cons_of_mem _ hk))
  · rw [hfinished, if_pos rfl]

/-! ### Building -/

/-- What building fields achieves if building what they name achieves it. -/
theorem recorded_buildFields
    (hbuild : ∀ {name m t m'}, types.Recorded m active →
      types.build active name m = (.ok t, m') →
      types.Recorded m' active ∧ m.Grows m' active ∧ (∃ d, types.find? name = some d) ∧
        m'.StandsFor t name) :
    ∀ {fields : List (String × String)} {m m' : Memo} {attributes : List Attribute},
      types.Recorded m active → types.buildFields active fields m = (.ok attributes, m') →
      types.Recorded m' active ∧ m.Grows m' active ∧
        List.Forall₂ (types.Describes m') fields attributes := by
  intro fields
  induction fields with
  | nil =>
      intro m m' attributes hr h
      rw [buildFields] at h
      cases h
      exact ⟨hr, .refl m active, .nil⟩
  | cons field rest ih =>
      intro m m' attributes hr h
      obtain ⟨t, m₁, more, rfl, hrest, hfirst⟩ := buildFields_cons h
      cases hp : DataType.ofName? field.2 with
      | some p =>
          rw [hp] at hfirst
          obtain ⟨rfl, rfl⟩ := hfirst
          obtain ⟨hr', hgrows, hmore⟩ := ih hr hrest
          refine ⟨hr', hgrows, .cons ⟨rfl, ?_⟩ hmore⟩
          rw [hp]
      | none =>
          rw [hp] at hfirst
          obtain ⟨hr₁, hgrows₁, hd, hstands⟩ := hbuild hr hfirst
          obtain ⟨hr', hgrows, hmore⟩ := ih hr₁ hrest
          refine ⟨hr', hgrows₁.trans hgrows, .cons ⟨rfl, ?_⟩ hmore⟩
          rw [hp]
          exact ⟨hd, hstands.mono hgrows⟩

/-- **Building a record type keeps what has been recorded in order**, and the type it gives is
finished unless it was active. -/
theorem recorded_build (types : TypeFactory) : ∀ (left : Nat) {active : List TypeKey}
    {name : String} {m m' : Memo} {t : DataType}, types.inactive active = left →
    types.Recorded m active → types.build active name m = (.ok t, m') →
    types.Recorded m' active ∧ m.Grows m' active ∧ (∃ d, types.find? name = some d) ∧
      m'.StandsFor t name ∧
      (.named name ∉ active → m'.finished.lookup (.named name) = some t) := by
  intro left
  induction left using Nat.strongRecOn with
  | _ left ih =>
      intro active name m m' t hleft hr h
      obtain ⟨d, hd, hcases⟩ := build_cases h
      rcases hcases with ⟨hfinished, rfl⟩ | ⟨hactive, hplaceholder⟩ |
        ⟨hfresh, hnone, attributes, m₁, hfields, rfl, rfl⟩
      · exact ⟨⟨hr.finished, hr.resolved, hr.active⟩, ⟨fun _ _ h => h, fun _ _ h => h,
          fun _ t h => ⟨t, h⟩⟩, ⟨d, hd⟩, .inl hfinished, fun _ => hfinished⟩
      · obtain ⟨hr', hgrows, u, hu⟩ := recorded_placeholder hr hactive
        have hm : m' = (m.placeholder (.named name)).2 := congrArg Prod.snd hplaceholder
        have ht : t = .unresolved (.named name) :=
          (congrArg Prod.fst hplaceholder).trans (m.placeholder_fst _)
        rw [hm]
        exact ⟨hr', hgrows, ⟨d, hd⟩, .inr ⟨ht, u, hu⟩, fun hnot => absurd hactive hnot⟩
      · have hless : types.inactive (.named name :: active) < left :=
          hleft ▸ inactive_lt hd hfresh
        obtain ⟨hr₁, hgrows₁, hdescribed⟩ := recorded_buildFields
          (fun hr' h' => by
            obtain ⟨h₁, h₂, h₃, h₄, -⟩ := ih _ hless rfl hr' h'
            exact ⟨h₁, h₂, h₃, h₄⟩) (hr.enter hnone) hfields
        obtain ⟨hr', hgrows, hlookup⟩ := recorded_finish hd hr₁ hfresh hdescribed
        exact ⟨hr', (hgrows₁.mono (List.subset_cons_self _ _)).trans hgrows, ⟨d, hd⟩,
          .inl hlookup, fun _ => hlookup⟩

end TypeFactory

end StreamQuery
