/-
The schemas of tables that share a scope.

The columns of one table after the other are built in one scope, so what is recorded for one table
is reused for the next.  However that may be, a column has the name that it was given, and its type
is the primitive that it names or some record.  Only how far that record is unfolded may depend on
what was built before, and where no two types lead to each other it does not.
-/
import StreamQuery.Config.Definition
import StreamQuery.Proofs.Types.Expansion

namespace StreamQuery

namespace Binding

/-- A scope in which no type is being built. -/
def Ready (types : TypeFactory) (b : Binding) : Prop :=
  ∃ r, b = some r ∧ r.active = [] ∧ types.Recorded r.toMemo []

/-- A scope in which no type is being built and every finished type is the expansion of its
name. -/
def Clean (types : TypeFactory) (b : Binding) : Prop :=
  ∃ r, b = some r ∧ r.active = [] ∧ types.Recorded r.toMemo [] ∧ types.Settled r.toMemo

variable {types : TypeFactory} {b b' : Binding} {name : String} {t : DataType}

theorem Clean.ready (h : b.Clean types) : b.Ready types := by
  obtain ⟨r, hb, hactive, hr, -⟩ := h
  exact ⟨r, hb, hactive, hr⟩

theorem clean_empty (types : TypeFactory) : Clean types (some .empty) :=
  ⟨.empty, rfl, rfl, types.recorded_empty, types.settled_empty⟩

/-- The type of a name is a primitive exactly if the name is that of one, and a record otherwise. -/
def OfKind (name : String) (t : DataType) : Prop :=
  match DataType.ofName? name with
  | some p => t = p
  | none => ∃ attributes, t = .struct attributes

theorem Ready.createType (h : b.Ready types)
    (hcreate : withResolver (types.createType name) b = (.ok t, b')) :
    b'.Ready types ∧ OfKind name t := by
  obtain ⟨r, rfl, hactive, hr⟩ := h
  obtain ⟨r', hrun, rfl⟩ := withResolver_bound _ hcreate
  obtain ⟨hactive', hr', -, e, he, hfinished⟩ := TypeFactory.recorded_createType hr hactive hrun
  refine ⟨⟨r', rfl, hactive', hr'⟩, ?_⟩
  unfold OfKind
  unfold TypeFactory.declared at he
  cases hp : DataType.ofName? name with
  | some p =>
      rw [hp] at he
      cases he
      exact hfinished.1
  | none =>
      rw [hp] at he
      obtain ⟨d, -, rfl⟩ := Option.map_eq_some_iff.mp he
      obtain ⟨-, attributes, -, -, hstruct, -⟩ := hr'.finished _ _ hfinished.2
      exact ⟨attributes, hstruct⟩

/-- A type that can be created in one clean scope is created in every other. -/
theorem Clean.createType (hkeys : types.KeysApart) (hlayered : types.Layered) (h : b.Clean types)
    (hcreate : withResolver (types.createType name) b = (.ok t, b')) : b'.Clean types ∧
      ∀ other : Binding, other.Clean types →
        ∃ after, withResolver (types.createType name) other = (.ok t, after) := by
  obtain ⟨r, rfl, hactive, hr, hs⟩ := h
  obtain ⟨r', hrun, rfl⟩ := withResolver_bound _ hcreate
  obtain ⟨hactive', hr', -⟩ := TypeFactory.recorded_createType hr hactive hrun
  have hlead : ∀ name, types.LeadTo [] name := fun _ k hk => by cases hk
  unfold TypeFactory.createType at hrun
  cases hp : DataType.ofName? name with
  | some p =>
      rw [hp] at hrun
      cases hrun
      refine ⟨⟨r, rfl, hactive, hr, hs⟩, ?_⟩
      rintro other ⟨q, rfl, -⟩
      refine ⟨some q, ?_⟩
      unfold withResolver inScope TypeFactory.createType
      rw [hp]
  | none =>
      rw [hp] at hrun
      have hbuild := TypeFactory.build_of_createStruct hactive hrun
      obtain ⟨hexpands, hs'⟩ :=
        TypeFactory.expands_build hkeys hlayered _ rfl hr hs (hlead name) List.not_mem_nil hbuild
      refine ⟨⟨r', rfl, hactive', hr', hs'⟩, ?_⟩
      rintro other ⟨q, rfl, hidle, hq, hsq⟩
      obtain ⟨m', hbuilt⟩ :=
        hexpands.build hkeys hlayered [] q.toMemo hq hsq (hlead name) List.not_mem_nil
      refine ⟨some { q with toMemo := m' }, ?_⟩
      unfold withResolver inScope TypeFactory.createType TypeFactory.createStruct
      simp only [hp, hidle, hbuilt]

end Binding

namespace Config

variable {types : TypeFactory} {b b' : Binding} {columns : String} {schema : Schema}

/-- An attribute has the name and the kind of a column. -/
def IsColumn (column : List Char × List Char) (a : Attribute) : Prop :=
  a.name = String.ofList column.1 ∧ Binding.OfKind (String.ofList column.2) a.type

theorem buildColumns_cons {column : List Char × List Char} {rest : List (List Char × List Char)}
    (h : buildColumns types (column :: rest) b = (.ok schema, b')) :
    ∃ t b₁ more, schema = ⟨String.ofList column.1, t⟩ :: more ∧
      Binding.withResolver (types.createType (String.ofList column.2)) b = (.ok t, b₁) ∧
      buildColumns types rest b₁ = (.ok more, b') := by
  obtain ⟨name, type⟩ := column
  unfold buildColumns at h
  split at h
  · cases h
  · rename_i t b₁ hfirst
    split at h
    · cases h
    · rename_i more b₂ hrest
      cases h
      exact ⟨t, b₁, more, rfl, hfirst, hrest⟩

theorem isColumn_of_buildColumns : ∀ {columns : List (List Char × List Char)} {b b' : Binding}
    {schema : Schema}, b.Ready types → buildColumns types columns b = (.ok schema, b') →
      b'.Ready types ∧ List.Forall₂ IsColumn columns schema := by
  intro columns
  induction columns with
  | nil =>
      intro b b' schema hb h
      cases h
      exact ⟨hb, .nil⟩
  | cons column rest ih =>
      intro b b' schema hb h
      obtain ⟨t, b₁, more, rfl, hfirst, hrest⟩ := buildColumns_cons h
      obtain ⟨hb₁, hkind⟩ := hb.createType hfirst
      obtain ⟨hb', hmore⟩ := ih hb₁ hrest
      exact ⟨hb', .cons ⟨rfl, hkind⟩ hmore⟩

theorem buildColumns_anywhere (hkeys : types.KeysApart) (hlayered : types.Layered) :
    ∀ {columns : List (List Char × List Char)} {b b' : Binding} {schema : Schema},
      b.Clean types → buildColumns types columns b = (.ok schema, b') → b'.Clean types ∧
        ∀ other : Binding, other.Clean types →
          ∃ after, buildColumns types columns other = (.ok schema, after) := by
  intro columns
  induction columns with
  | nil =>
      intro b b' schema hb h
      cases h
      exact ⟨hb, fun other _ => ⟨other, rfl⟩⟩
  | cons column rest ih =>
      intro b b' schema hb h
      obtain ⟨t, b₁, more, rfl, hfirst, hrest⟩ := buildColumns_cons h
      obtain ⟨hb₁, hcreate⟩ := hb.createType hkeys hlayered hfirst
      obtain ⟨hb', hbuild⟩ := ih hb₁ hrest
      refine ⟨hb', fun other hother => ?_⟩
      obtain ⟨middle, hfirst'⟩ := hcreate other hother
      obtain ⟨hmiddle, -⟩ := hother.createType hkeys hlayered hfirst'
      obtain ⟨after, hrest'⟩ := hbuild middle hmiddle
      refine ⟨after, ?_⟩
      unfold buildColumns
      simp only [hfirst', hrest']

theorem parseSchema_eq_ok (h : parseSchema types columns b = (.ok schema, b')) :
    buildColumns types (splitColumns columns.toList) b = (.ok schema, b') ∧ schema ≠ [] := by
  unfold parseSchema at h
  split at h
  · cases h
  · rename_i hnot
    refine ⟨h, ?_⟩
    rintro rfl
    exact hnot b' h

theorem parseSchema_of_buildColumns (hne : schema ≠ [])
    (h : buildColumns types (splitColumns columns.toList) b = (.ok schema, b')) :
    parseSchema types columns b = (.ok schema, b') := by
  unfold parseSchema
  rw [h]
  cases schema with
  | nil => exact absurd rfl hne
  | cons a rest => rfl

/-- **The columns of a table have the names and the kinds that they were given**, whatever was
built before. -/
theorem isColumn_of_parseSchema (hb : b.Ready types)
    (h : parseSchema types columns b = (.ok schema, b')) :
    b'.Ready types ∧ List.Forall₂ IsColumn (splitColumns columns.toList) schema :=
  isColumn_of_buildColumns hb (parseSchema_eq_ok h).1

/-- **Where no two types lead to each other a table has the same schema in every scope.** -/
theorem parseSchema_anywhere (hkeys : types.KeysApart) (hlayered : types.Layered)
    (hb : b.Clean types) (h : parseSchema types columns b = (.ok schema, b')) : b'.Clean types ∧
      ∀ other : Binding, other.Clean types →
        ∃ after, parseSchema types columns other = (.ok schema, after) := by
  obtain ⟨hbuild, hne⟩ := parseSchema_eq_ok h
  obtain ⟨hb', hany⟩ := buildColumns_anywhere hkeys hlayered hb hbuild
  refine ⟨hb', fun other hother => ?_⟩
  obtain ⟨after, hbuilt⟩ := hany other hother
  exact ⟨after, parseSchema_of_buildColumns hne hbuilt⟩

end Config

end StreamQuery
