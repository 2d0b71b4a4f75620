/-
Types that do not depend on what was built before.

A type that is finished while another is being built holds a placeholder for that other.  Where
two types lead to each other, which of them holds the placeholder depends on which was asked for
first, and so does what is reused later.  Where no two different types do, a type holds no
placeholder but for itself, and every name has one expansion.

`Expands` is that expansion, read off the descriptions alone.  Whatever was recorded before,
building a name gives its expansion and leaves behind only expansions; and a name that has an
expansion can be built.
-/
import StreamQuery.Proofs.Types.Unfold

namespace StreamQuery

namespace TypeFactory

/-- A field of the description of a name names another record. -/
def Refers (types : TypeFactory) (name other : String) : Prop :=
  ∃ d, types.find? name = some d ∧ ∃ field ∈ d.fields, field.2 = other ∧
    DataType.ofName? other = none

/-- From a name one gets to another, or is there already. -/
abbrev Leads (types : TypeFactory) : String → String → Prop :=
  Relation.ReflTransGen types.Refers

/-- No two different types lead to each other.  A type may refer to itself. -/
def Layered (types : TypeFactory) : Prop :=
  ∀ name other, types.Leads name other → types.Leads other name → name = other

mutual
/-- The expansion of the description of a name. -/
inductive Expands (types : TypeFactory) : String → DataType → Prop
  | record {name : String} {d : Descriptor} {attributes : List Attribute}
      (hd : types.find? name = some d) (hfields : ExpandsFields types name d.fields attributes) :
      Expands types name (.struct attributes)
/-- The expansions of fields of the description of a name; only the name itself stays. -/
inductive ExpandsFields (types : TypeFactory) :
    String → List (String × String) → List Attribute → Prop
  | nil {self : String} : ExpandsFields types self [] []
  | primitive {self : String} {field : String × String} {rest : List (String × String)}
      {t : DataType} {attributes : List Attribute} (ht : DataType.ofName? field.2 = some t)
      (hrest : ExpandsFields types self rest attributes) :
      ExpandsFields types self (field :: rest) (⟨field.1, t⟩ :: attributes)
  | itself {self : String} {field : String × String} {rest : List (String × String)}
      {attributes : List Attribute} (hnone : DataType.ofName? field.2 = none)
      (hself : field.2 = self) (hrest : ExpandsFields types self rest attributes) :
      ExpandsFields types self (field :: rest)
        (⟨field.1, .unresolved (.named self)⟩ :: attributes)
  | record {self : String} {field : String × String} {rest : List (String × String)}
      {t : DataType} {attributes : List Attribute} (hnone : DataType.ofName? field.2 = none)
      (hother : field.2 ≠ self) (ht : Expands types field.2 t)
      (hrest : ExpandsFields types self rest attributes) :
      ExpandsFields types self (field :: rest) (⟨field.1, t⟩ :: attributes)
end

variable {types : TypeFactory} {m m' : Memo} {active : List TypeKey} {name self : String}
  {d : Descriptor} {t : DataType} {fields : List (String × String)} {attributes : List Attribute}

mutual
/-- A name has one expansion. -/
theorem Expands.unique : ∀ {name : String} {t t' : DataType}, types.Expands name t →
    types.Expands name t' → t = t'
  | _, _, _, .record hd hfields, .record hd' hfields' => by
      rw [hd] at hd'
      cases hd'
      rw [hfields.unique hfields']
theorem ExpandsFields.unique : ∀ {self : String} {fields : List (String × String)}
    {as as' : List Attribute}, types.ExpandsFields self fields as →
    types.ExpandsFields self fields as' → as = as'
  | _, _, _, _, .nil, .nil => rfl
  | _, _, _, _, .primitive ht hrest, h => by
      cases h with
      | primitive ht' hrest' =>
          rw [ht] at ht'
          cases ht'
          rw [hrest.unique hrest']
      | itself hnone => rw [ht] at hnone; cases hnone
      | record hnone => rw [ht] at hnone; cases hnone
  | _, _, _, _, .itself hnone hself hrest, h => by
      cases h with
      | primitive ht => rw [ht] at hnone; cases hnone
      | itself _ _ hrest' => rw [hrest.unique hrest']
      | record _ hother => exact absurd hself hother
  | _, _, _, _, .record hnone hother ht hrest, h => by
      cases h with
      | primitive ht => rw [ht] at hnone; cases hnone
      | itself _ hself => exact absurd hself hother
      | record _ _ ht' hrest' => rw [ht.unique ht', hrest.unique hrest']
end

theorem Expands.find? (h : types.Expands name t) : ∃ d, types.find? name = some d := by
  cases h with
  | record hd _ => exact ⟨_, hd⟩

/-! ### What is recorded -/

/-- Every finished type is the expansion of its name. -/
def Settled (types : TypeFactory) (m : Memo) : Prop :=
  ∀ name d t, types.find? name = some d → m.finished.lookup (.named name) = some t →
    types.Expands name t

/-- Every active type leads to a name. -/
def LeadTo (types : TypeFactory) (active : List TypeKey) (name : String) : Prop :=
  ∀ k ∈ active, ∃ a d, k = .named a ∧ types.find? a = some d ∧ types.Leads a name

theorem settled_empty (types : TypeFactory) : types.Settled .empty := by
  intro name d t _ h
  cases h

theorem Settled.of_finished (h : types.Settled m) (hsame : m'.finished = m.finished) :
    types.Settled m' := by
  intro name d t hd ht
  rw [hsame] at ht
  exact h name d t hd ht

theorem Settled.placeholder (h : types.Settled m) (key : TypeKey) :
    types.Settled (m.placeholder key).2 :=
  h.of_finished (m.placeholder_finished key)

/-- Names of descriptions with one key are the same. -/
theorem KeysApart.eq_of_key (hkeys : types.KeysApart) {other : String} {e : Descriptor}
    (hd : types.find? name = some d) (he : types.find? other = some e)
    (hkey : TypeKey.named name = .named other) : name = other := by
  rw [← find?_name hd, ← find?_name he] at hkey ⊢
  exact hkeys d (List.mem_of_find?_eq_some hd) e (List.mem_of_find?_eq_some he) hkey

/-- An expansion is finished. -/
theorem Settled.finish (h : types.Settled m) (hkeys : types.KeysApart)
    (hd : types.find? name = some d) (ht : types.Expands name t) :
    types.Settled ((m.finish (.named name) t).setResolution (.named name) t) := by
  intro other e u he hu
  rw [Memo.setResolution_finished, Memo.lookup_finish] at hu
  split at hu
  · rename_i hkey
    cases hu
    rw [hkeys.eq_of_key he hd hkey]
    exact ht
  · exact h other e u he hu

theorem LeadTo.enter (h : types.LeadTo active name) (hd : types.find? name = some d) :
    types.LeadTo (.named name :: active) name :=
  List.forall_mem_cons.mpr ⟨⟨name, d, rfl, hd, .refl⟩, h⟩

theorem LeadTo.step {other : String} (h : types.LeadTo active name)
    (hrefers : types.Refers name other) : types.LeadTo active other := by
  intro k hk
  obtain ⟨a, d, hkey, ha, hleads⟩ := h k hk
  exact ⟨a, d, hkey, ha, hleads.tail hrefers⟩

/-- A field that names another record than its own names none that is active. -/
theorem LeadTo.fresh {other : String} {e : Descriptor} (h : types.LeadTo active name)
    (hkeys : types.KeysApart) (hlayered : types.Layered) (hrefers : types.Refers name other)
    (hother : other ≠ name) (he : types.find? other = some e) : .named other ∉ active := by
  intro hactive
  obtain ⟨a, d, hkey, ha, hleads⟩ := h _ hactive
  obtain rfl := hkeys.eq_of_key he ha hkey
  exact hother (hlayered _ _ hleads (.single hrefers))

/-! ### Building gives expansions -/

/-- The type of a field that names its own record, which is being built. -/
theorem build_itself (hr : types.Recorded m active) (hactive : .named name ∈ active)
    (h : types.build active name m = (.ok t, m')) :
    t = .unresolved (.named name) ∧ m' = (m.placeholder (.named name)).2 := by
  obtain ⟨d, -, ⟨hfinished, -⟩ | ⟨-, hplaceholder⟩ | ⟨hfresh, -⟩⟩ := build_cases h
  · rw [hr.active _ hactive] at hfinished
    cases hfinished
  · have ht : t = (m.placeholder (.named name)).1 := congrArg Prod.fst hplaceholder
    exact ⟨ht.trans (m.placeholder_fst _), congrArg Prod.snd hplaceholder⟩
  · exact absurd hactive hfresh

theorem refers_of_find? (hd : types.find? name = some d) :
    ∀ field ∈ d.fields, DataType.ofName? field.2 = none → types.Refers name field.2 :=
  fun field hfield hnone => ⟨d, hd, field, hfield, rfl, hnone⟩

theorem expands_buildFields (hkeys : types.KeysApart) (hlayered : types.Layered)
    (hbuild : ∀ {name m t m'}, types.Recorded m active → types.Settled m →
      types.LeadTo active name → .named name ∉ active → types.build active name m = (.ok t, m') →
      types.Expands name t ∧ types.Settled m')
    (hlead : types.LeadTo active self) (hself : .named self ∈ active) :
    ∀ {fields m m' attributes}, (∀ field ∈ fields, DataType.ofName? field.2 = none →
        types.Refers self field.2) → types.Recorded m active → types.Settled m →
      types.buildFields active fields m = (.ok attributes, m') →
      types.ExpandsFields self fields attributes ∧ types.Settled m' := by
  intro fields
  induction fields with
  | nil =>
      intro m m' attributes _ hr hs h
      rw [buildFields] at h
      cases h
      exact ⟨.nil, hs⟩
  | cons field rest ih =>
      intro m m' attributes hrefers hr hs h
      obtain ⟨t, m₁, more, rfl, hrest, hfirst⟩ := buildFields_cons h
      have hrefers' := fun f hf => hrefers f (List.mem_cons_of_mem _ hf)
      cases hp : DataType.ofName? field.2 with
      | some p =>
          rw [hp] at hfirst
          obtain ⟨rfl, rfl⟩ := hfirst
          obtain ⟨hmore, hs'⟩ := ih hrefers' hr hs hrest
          exact ⟨.primitive hp hmore, hs'⟩
      | none =>
          rw [hp] at hfirst
          obtain ⟨hr₁, -, ⟨e, he⟩, -⟩ := types.recorded_build _ rfl hr hfirst
          have hrefer := hrefers field List.mem_cons_self hp
          by_cases hsame : field.2 = self
          · rw [hsame] at hfirst
            obtain ⟨rfl, rfl⟩ := build_itself hr hself hfirst
            obtain ⟨hmore, hs'⟩ := ih hrefers' hr₁ (hs.placeholder _) hrest
            exact ⟨.itself hp hsame hmore, hs'⟩
          · obtain ⟨ht, hs₁⟩ := hbuild hr hs (hlead.step hrefer)
              (hlead.fresh hkeys hlayered hrefer hsame he) hfirst
            obtain ⟨hmore, hs'⟩ := ih hrefers' hr₁ hs₁ hrest
            exact ⟨.record hp hsame ht hmore, hs'⟩

/-- **Building a name gives its expansion**, whatever is recorded already. -/
theorem expands_build (hkeys : types.KeysApart) (hlayered : types.Layered) :
    ∀ (left : Nat) {active : List TypeKey} {name : String} {m m' : Memo} {t : DataType},
      types.inactive active = left → types.Recorded m active → types.Settled m →
      types.LeadTo active name → .named name ∉ active →
      types.build active name m = (.ok t, m') → types.Expands name t ∧ types.Settled m' := by
  intro left
  induction left using Nat.strongRecOn with
  | _ left ih =>
      intro active name m m' t hleft hr hs hlead hfresh h
      obtain ⟨d, hd, ⟨hfinished, rfl⟩ | ⟨hactive, -⟩ |
        ⟨-, hnone, attributes, m₁, hfields, rfl, rfl⟩⟩ := build_cases h
      · exact ⟨hs name d t hd hfinished, hs.of_finished rfl⟩
      · exact absurd hactive hfresh
      · have hless : types.inactive (.named name :: active) < left :=
          hleft ▸ inactive_lt hd hfresh
        obtain ⟨hexpands, hs₁⟩ := expands_buildFields hkeys hlayered
          (fun hr' hs' hlead' hfresh' h' => ih _ hless rfl hr' hs' hlead' hfresh' h')
          (hlead.enter hd) List.mem_cons_self (refers_of_find? hd) (hr.enter hnone) hs hfields
        exact ⟨.record hd hexpands, hs₁.finish hkeys hd (.record hd hexpands)⟩

/-! ### What has an expansion can be built -/

theorem build_of_finished (hd : types.find? name = some d)
    (hfinished : m.finished.lookup (.named name) = some t) :
    types.build active name m = (.ok t, { m with reuseCount := m.reuseCount + 1 }) := by
  rw [build]
  split
  · rename_i hnone
    rw [hd] at hnone
    cases hnone
  · simp only [Memo.finished?, hfinished]

theorem build_of_active (hd : types.find? name = some d)
    (hnone : m.finished.lookup (.named name) = none) (hactive : .named name ∈ active) :
    types.build active name m =
      (.ok (.unresolved (.named name)), (m.placeholder (.named name)).2) := by
  rw [build]
  split
  · rename_i hnot
    rw [hd] at hnot
    cases hnot
  · simp only [Memo.finished?, hnone, dif_pos hactive, Memo.placeholder_fst]

theorem build_of_fields (hd : types.find? name = some d)
    (hnone : m.finished.lookup (.named name) = none) (hfresh : .named name ∉ active)
    (hfields : types.buildFields (.named name :: active) d.fields m = (.ok attributes, m')) :
    types.build active name m = (.ok (.struct attributes),
      (m'.finish (.named name) (.struct attributes)).setResolution (.named name)
        (.struct attributes)) := by
  rw [build]
  split
  · rename_i hnot
    rw [hd] at hnot
    cases hnot
  · rename_i e he
    rw [hd] at he
    cases he
    simp only [Memo.finished?, hnone, dif_neg hfresh, hfields]

theorem buildFields_of_build {field : String × String} {rest : List (String × String)} {m₁ : Memo}
    (hnone : DataType.ofName? field.2 = none)
    (hfirst : types.build active field.2 m = (.ok t, m₁))
    (hrest : types.buildFields active rest m₁ = (.ok attributes, m')) :
    types.buildFields active (field :: rest) m = (.ok (⟨field.1, t⟩ :: attributes), m') := by
  rw [buildFields]
  simp only [hnone, hfirst, hrest]

mutual
/-- **A name that has an expansion can be built**, whatever is recorded already. -/
theorem Expands.build (hkeys : types.KeysApart) (hlayered : types.Layered) :
    ∀ {name : String} {t : DataType}, types.Expands name t → ∀ (active : List TypeKey) (m : Memo),
      types.Recorded m active → types.Settled m → types.LeadTo active name →
      .named name ∉ active → ∃ m', types.build active name m = (.ok t, m')
  | name, _, .record hd hfields => by
      intro active m hr hs hlead hfresh
      cases hlookup : m.finished.lookup (.named name) with
      | some u =>
          have hsame := (hs name _ u hd hlookup).unique (.record hd hfields)
          rw [hsame] at hlookup
          exact ⟨_, build_of_finished hd hlookup⟩
      | none =>
          obtain ⟨m₁, hbuilt⟩ := hfields.build hkeys hlayered (refers_of_find? hd) _ _
            (hr.enter hlookup) hs (hlead.enter hd) List.mem_cons_self
          exact ⟨_, build_of_fields hd hlookup hfresh hbuilt⟩
theorem ExpandsFields.build (hkeys : types.KeysApart) (hlayered : types.Layered) :
    ∀ {self : String} {fields : List (String × String)} {attributes : List Attribute},
      types.ExpandsFields self fields attributes →
      (∀ field ∈ fields, DataType.ofName? field.2 = none → types.Refers self field.2) →
      ∀ (active : List TypeKey) (m : Memo), types.Recorded m active → types.Settled m →
        types.LeadTo active self → .named self ∈ active →
        ∃ m', types.buildFields active fields m = (.ok attributes, m')
  | _, _, _, .nil => by
      intro _ active m _ _ _ _
      exact ⟨m, by rw [buildFields]⟩
  | _, _, _, .primitive ht hrest => by
      intro hrefers active m hr hs hlead hself
      obtain ⟨m', hbuilt⟩ := hrest.build hkeys hlayered
        (fun f hf => hrefers f (List.mem_cons_of_mem _ hf)) _ _ hr hs hlead hself
      exact ⟨m', by rw [buildFields]; simp only [ht, hbuilt]⟩
  | _, _, _, .itself hnone hsame hrest => by
      intro hrefers active m hr hs hlead hself
      obtain ⟨d, hd, -⟩ := hrefers _ List.mem_cons_self hnone
      have hfirst := build_of_active hd (hr.active _ hself) hself
      obtain ⟨hr₁, -⟩ := types.recorded_build _ rfl hr hfirst
      obtain ⟨m', hbuilt⟩ := hrest.build hkeys hlayered
        (fun f hf => hrefers f (List.mem_cons_of_mem _ hf)) _ _ hr₁ (hs.placeholder _) hlead hself
      exact ⟨m', buildFields_of_build hnone (hsame ▸ hfirst) hbuilt⟩
  | _, _, _, .record hnone hother ht hrest => by
      intro hrefers active m hr hs hlead hself
      have hrefer := hrefers _ List.mem_cons_self hnone
      have hlead' := hlead.step hrefer
      obtain ⟨e, he⟩ := ht.find?
      have hfresh := hlead.fresh hkeys hlayered hrefer hother he
      obtain ⟨m₁, hfirst⟩ := ht.build hkeys hlayered _ _ hr hs hlead' hfresh
      obtain ⟨hr₁, -⟩ := types.recorded_build _ rfl hr hfirst
      obtain ⟨-, hs₁⟩ := expands_build hkeys hlayered _ rfl hr hs hlead' hfresh hfirst
      obtain ⟨m', hbuilt⟩ := hrest.build hkeys hlayered
        (fun f hf => hrefers f (List.mem_cons_of_mem _ hf)) _ _ hr₁ hs₁ hlead hself
      exact ⟨m', buildFields_of_build hnone hfirst hbuilt⟩
end

end TypeFactory

end StreamQuery
