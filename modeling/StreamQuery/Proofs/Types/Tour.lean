/-
The names that are met while a record type is built.

`Tours` is a traversal of the descriptions, depth first and in the order of their fields: a name
is met each time a field has it, and its description is expanded the first time.  It speaks of
names alone.  Building follows it: a description that was expanded is finished or active, so
meeting it again gives a type without building anything, and building stops at the first name on
the tour that stands for no type.

The name that is asked for is not treated like that of a field.  It is looked up among the
descriptions, so that a primitive of its name is neither here nor there.
-/
import StreamQuery.Failure
import StreamQuery.Proofs.Types.Active
import StreamQuery.Proofs.Types.Failure

namespace StreamQuery

namespace TypeFactory

/-- A name that is neither that of a primitive nor that of a description. -/
def Unknown (types : TypeFactory) (name : String) : Prop :=
  DataType.ofName? name = none ∧ types.find? name = none

/-- The names of the types of the fields, if a name in a field stands for a description. -/
def below? (types : TypeFactory) (name : String) : Option (List String) :=
  match DataType.ofName? name with
  | some _ => none
  | none => (types.find? name).map fun d => d.fields.map Prod.snd

/-- A tour of names, one after the other: what was expanded before, the names, the names that are
met on the way, and what has been expanded in the end. -/
inductive Tours (types : TypeFactory) :
    List String → List String → List String → List String → Prop
  | done {seen : List String} : Tours types seen [] [] seen
  /-- There is nothing to expand, or it was expanded before. -/
  | pass {seen seen' rest met : List String} {name : String}
      (hpass : types.below? name = none ∨ name ∈ seen)
      (hrest : Tours types seen rest met seen') :
      Tours types seen (name :: rest) (name :: met) seen'
  | expand {seen seen₁ seen' below rest met₁ met : List String} {name : String}
      (hbelow : types.below? name = some below) (hfresh : name ∉ seen)
      (hfirst : Tours types (name :: seen) below met₁ seen₁)
      (hrest : Tours types seen₁ rest met seen') :
      Tours types seen (name :: rest) (name :: (met₁ ++ met)) seen'

/-- The names that are met from a name. -/
inductive Meets (types : TypeFactory) (name : String) : List String → Prop
  | unknown (hnone : types.find? name = none) : Meets types name [name]
  | record {d : Descriptor} {met seen : List String} (hd : types.find? name = some d)
      (htour : Tours types [name] (d.fields.map Prod.snd) met seen) :
      Meets types name (name :: met)

/-- The first of the names met that is neither that of a primitive nor that of a description. -/
inductive FirstUnknown (types : TypeFactory) : List String → String → Prop
  | here {name : String} {rest : List String} (hunknown : types.Unknown name) :
      FirstUnknown types (name :: rest) name
  | later {name other : String} {rest : List String} (hknown : ¬ types.Unknown other)
      (hrest : FirstUnknown types rest name) : FirstUnknown types (other :: rest) name

variable {types : TypeFactory} {seen seen' names met met' : List String} {name : String}
  {d : Descriptor} {m m' : Memo} {active : List TypeKey}

/-! ### Tours -/

theorem below?_eq_some {below : List String} : types.below? name = some below ↔
    DataType.ofName? name = none ∧ ∃ d, types.find? name = some d ∧
      d.fields.map Prod.snd = below := by
  unfold below?
  cases DataType.ofName? name with
  | some t => simp
  | none => simp

theorem not_unknown_of_find? (hd : types.find? name = some d) : ¬ types.Unknown name := by
  rintro ⟨-, hnone⟩
  rw [hd] at hnone
  cases hnone

theorem Tours.unique (h : types.Tours seen names met seen') :
    ∀ {met' seen''}, types.Tours seen names met' seen'' → met' = met ∧ seen'' = seen' := by
  induction h with
  | done =>
      intro met' seen'' h'
      cases h'
      exact ⟨rfl, rfl⟩
  | pass hpass hrest ih =>
      intro met' seen'' h'
      cases h' with
      | pass _ hrest' =>
          obtain ⟨rfl, rfl⟩ := ih hrest'
          exact ⟨rfl, rfl⟩
      | expand hbelow hfresh =>
          rcases hpass with hnone | hmem
          · rw [hbelow] at hnone
            cases hnone
          · exact absurd hmem hfresh
  | expand hbelow hfresh hfirst hrest ihfirst ihrest =>
      intro met' seen'' h'
      cases h' with
      | pass hpass =>
          rcases hpass with hnone | hmem
          · rw [hbelow] at hnone
            cases hnone
          · exact absurd hmem hfresh
      | expand hbelow' _ hfirst' hrest' =>
          rw [hbelow] at hbelow'
          cases hbelow'
          obtain ⟨rfl, rfl⟩ := ihfirst hfirst'
          obtain ⟨rfl, rfl⟩ := ihrest hrest'
          exact ⟨rfl, rfl⟩

/-- How many descriptions were not expanded. -/
def unseen (types : TypeFactory) (seen : List String) : Nat :=
  types.descriptors.countP fun d => !(seen.contains d.name)

theorem unseen_le (h : seen ⊆ seen') : types.unseen seen' ≤ types.unseen seen := by
  refine List.countP_mono_left fun d _ hd => ?_
  simp only [List.contains_eq_mem, Bool.not_eq_true', decide_eq_false_iff_not] at hd ⊢
  exact fun hmem => hd (h hmem)

theorem unseen_lt (hd : types.find? name = some d) (hfresh : name ∉ seen) :
    types.unseen (name :: seen) < types.unseen seen := by
  have hname := find?_name hd
  refine countP_lt_of_imp ?_ (List.mem_of_find?_eq_some hd) ?_ ?_
  · intro e he
    simp only [List.contains_eq_mem, List.mem_cons, Bool.not_eq_true', decide_eq_false_iff_not,
      not_or] at he ⊢
    exact he.2
  · simpa [hname] using hfresh
  · simp [hname]

theorem Tours.subset (h : types.Tours seen names met seen') : seen ⊆ seen' := by
  induction h with
  | done => exact List.Subset.refl _
  | pass _ _ ih => exact ih
  | expand _ _ _ _ ihfirst ihrest =>
      exact fun name hmem => ihrest (ihfirst (List.mem_cons_of_mem _ hmem))

/-- **Every tour comes to an end.**  With each description that is expanded fewer are left, and
between two of them the names become fewer. -/
theorem tours_total (types : TypeFactory) : ∀ (left : Nat) (seen : List String),
    types.unseen seen = left → ∀ names, ∃ met seen', types.Tours seen names met seen' := by
  intro left
  induction left using Nat.strongRecOn with
  | _ left ih =>
      intro seen hleft names
      induction names with
      | nil => exact ⟨_, _, .done⟩
      | cons name rest ihrest =>
          by_cases hmem : name ∈ seen
          · obtain ⟨met, seen', htour⟩ := ihrest
            exact ⟨_, _, .pass (.inr hmem) htour⟩
          · cases hbelow : types.below? name with
            | none =>
                obtain ⟨met, seen', htour⟩ := ihrest
                exact ⟨_, _, .pass (.inl hbelow) htour⟩
            | some below =>
                obtain ⟨-, d, hd, -⟩ := below?_eq_some.mp hbelow
                have hless : types.unseen (name :: seen) < left := hleft ▸ unseen_lt hd hmem
                obtain ⟨met₁, seen₁, hfirst⟩ := ih _ hless (name :: seen) rfl below
                obtain ⟨met, seen', hrest⟩ := ih _
                  (Nat.lt_of_le_of_lt (unseen_le hfirst.subset) hless) seen₁ rfl rest
                exact ⟨_, _, .expand hbelow hmem hfirst hrest⟩

theorem Meets.unique (h : types.Meets name met) (h' : types.Meets name met') : met' = met := by
  cases h with
  | unknown hnone =>
      cases h' with
      | unknown => rfl
      | record hd => rw [hnone] at hd; cases hd
  | record hd htour =>
      cases h' with
      | unknown hnone => rw [hd] at hnone; cases hnone
      | record hd' htour' =>
          rw [hd] at hd'
          cases hd'
          rw [(htour.unique htour').1]

theorem meets_total (types : TypeFactory) (name : String) : ∃ met, types.Meets name met := by
  cases hd : types.find? name with
  | none => exact ⟨_, .unknown hd⟩
  | some d =>
      obtain ⟨met, seen, htour⟩ := types.tours_total _ [name] rfl (d.fields.map Prod.snd)
      exact ⟨_, .record hd htour⟩

/-! ### The first unknown name -/

namespace FirstUnknown

variable {x y : String}

theorem unique (h : types.FirstUnknown met x) (h' : types.FirstUnknown met y) : x = y := by
  induction h with
  | here hunknown =>
      cases h' with
      | here => rfl
      | later hknown => exact absurd hunknown hknown
  | later hknown _ ih =>
      cases h' with
      | here hunknown => exact absurd hunknown hknown
      | later _ hrest => exact ih hrest

theorem unknown (h : types.FirstUnknown met x) : x ∈ met ∧ types.Unknown x := by
  induction h with
  | here hunknown => exact ⟨List.mem_cons_self, hunknown⟩
  | later _ _ ih => exact ⟨List.mem_cons_of_mem _ ih.1, ih.2⟩

theorem append_right (h : types.FirstUnknown met x) (more : List String) :
    types.FirstUnknown (met ++ more) x := by
  induction h with
  | here hunknown => exact .here hunknown
  | later hknown _ ih => exact .later hknown ih

theorem append_left {before : List String} (hknown : ∀ other ∈ before, ¬ types.Unknown other)
    (h : types.FirstUnknown met x) : types.FirstUnknown (before ++ met) x := by
  induction before with
  | nil => exact h
  | cons other before ih =>
      obtain ⟨hother, hrest⟩ := List.forall_mem_cons.mp hknown
      exact .later hother (ih hrest)

end FirstUnknown

/-! ### Building follows the tour -/

/-- The descriptions that were expanded are those of the types that are finished or active. -/
def Marks (types : TypeFactory) (seen : List String) (active : List TypeKey) (m : Memo) : Prop :=
  ∀ name d, types.find? name = some d → (name ∈ seen ↔ Begun m active name)

/-- Fields are built, with no unknown name having been met, or building them stops at the first. -/
def Follows (types : TypeFactory) (active : List TypeKey) (fields : List (String × String))
    (m : Memo) (seen' met : List String) : Prop :=
  (∃ attributes m', types.buildFields active fields m = (.ok attributes, m') ∧
    types.Marks seen' active m' ∧ ∀ name ∈ met, ¬ types.Unknown name) ∨
  ∃ name m', types.buildFields active fields m = (.error ⟨name⟩, m') ∧ types.FirstUnknown met name

theorem Marks.of_finished (h : types.Marks seen active m) (hsame : m'.finished = m.finished) :
    types.Marks seen active m' := by
  unfold Marks Begun
  rw [hsame]
  exact h

/-- A description is expanded when its type becomes active. -/
theorem Marks.enter (h : types.Marks seen active m) (hkeys : types.KeysApart)
    (hd : types.find? name = some d) : types.Marks (name :: seen) (.named name :: active) m := by
  intro other e he
  have hother := h other e he
  unfold Begun at hother ⊢
  rw [List.mem_cons, List.mem_cons, hother, or_assoc]
  refine or_congr_left ⟨fun hsame => congrArg _ hsame, fun hkey => ?_⟩
  exact hkeys.eq_of_key he hd hkey

/-- A type that is finished was active. -/
theorem Marks.finish (h : types.Marks seen (.named name :: active) m) (t : DataType) :
    types.Marks seen active ((m.finish (.named name) t).setResolution (.named name) t) := by
  intro other e he
  rw [h other e he]
  unfold Begun
  rw [Memo.setResolution_finished, Memo.lookup_finish, List.mem_cons]
  by_cases hkey : TypeKey.named other = .named name
  · simp [hkey]
  · simp [hkey]

/-- A type that is finished or active is given at once. -/
theorem build_of_begun (hd : types.find? name = some d) (hbegun : Begun m active name) :
    ∃ t m', types.build active name m = (.ok t, m') ∧ m'.finished = m.finished := by
  cases hlookup : m.finished.lookup (.named name) with
  | some t => exact ⟨t, _, build_of_finished hd hlookup, rfl⟩
  | none =>
      rcases hbegun with hactive | ⟨t, ht⟩
      · exact ⟨_, _, build_of_active hd hlookup hactive, m.placeholder_finished _⟩
      · rw [hlookup] at ht
        cases ht

section Fields

variable {field : String × String} {rest : List (String × String)}

theorem Follows.primitive {t : DataType} (ht : DataType.ofName? field.2 = some t)
    (h : types.Follows active rest m seen' met) :
    types.Follows active (field :: rest) m seen' (field.2 :: met) := by
  have hknown : ¬ types.Unknown field.2 := by
    rintro ⟨hnone, -⟩
    rw [ht] at hnone
    cases hnone
  unfold Follows
  rw [buildFields_of_primitive ht]
  obtain ⟨attributes, m', hbuild, hmarks, hmet⟩ | ⟨name, m', hbuild, hfirst⟩ := h
  · rw [hbuild]
    exact .inl ⟨_, m', rfl, hmarks, List.forall_mem_cons.mpr ⟨hknown, hmet⟩⟩
  · rw [hbuild]
    exact .inr ⟨name, m', rfl, .later hknown hfirst⟩

/-- A field whose type could be built, after the names `before` were met. -/
theorem Follows.record {t : DataType} {before : List String}
    (hnone : DataType.ofName? field.2 = none) (hd : types.find? field.2 = some d)
    (hfirst : types.build active field.2 m = (.ok t, m'))
    (hbefore : ∀ name ∈ before, ¬ types.Unknown name)
    (h : types.Follows active rest m' seen' met) :
    types.Follows active (field :: rest) m seen' (field.2 :: (before ++ met)) := by
  have hknown := not_unknown_of_find? hd
  unfold Follows
  rw [buildFields_of_record hnone hfirst]
  obtain ⟨attributes, m'', hbuild, hmarks, hmet⟩ | ⟨name, m'', hbuild, hunknown⟩ := h
  · rw [hbuild]
    refine .inl ⟨_, m'', rfl, hmarks, List.forall_mem_cons.mpr ⟨hknown, ?_⟩⟩
    exact List.forall_mem_append.mpr ⟨hbefore, hmet⟩
  · rw [hbuild]
    exact .inr ⟨name, m'', rfl, .later hknown (hunknown.append_left hbefore)⟩

end Fields

/-- **Building fields follows the tour of their names.** -/
theorem Tours.follows (hkeys : types.KeysApart) (h : types.Tours seen names met seen') :
    ∀ {active : List TypeKey} {m : Memo} {fields : List (String × String)},
      fields.map Prod.snd = names → types.Marks seen active m →
      types.Follows active fields m seen' met := by
  induction h with
  | done =>
      intro active m fields hfields hmarks
      cases List.map_eq_nil_iff.mp hfields
      exact .inl ⟨[], m, by rw [buildFields], hmarks, by simp⟩
  | @pass seen seen' rest met name hpass hrest ih =>
      intro active m fields hfields hmarks
      obtain ⟨field, fields, rfl, rfl, hnames⟩ := List.map_eq_cons_iff.mp hfields
      cases hp : DataType.ofName? field.2 with
      | some t => exact (ih hnames hmarks).primitive hp
      | none =>
          cases hd : types.find? field.2 with
          | none =>
              exact .inr ⟨_, _, buildFields_of_failure hp (build_of_unknown hd), .here ⟨hp, hd⟩⟩
          | some d =>
              have hmem : field.2 ∈ seen :=
                hpass.resolve_left (by rw [below?_eq_some.mpr ⟨hp, d, hd, rfl⟩]; exact nofun)
              obtain ⟨t, m', hbuild, hsame⟩ := build_of_begun hd ((hmarks _ d hd).mp hmem)
              have hnothing : ∀ name ∈ ([] : List String), ¬ types.Unknown name := by simp
              exact (ih hnames (hmarks.of_finished hsame)).record hp hd hbuild hnothing
  | @expand seen seen₁ seen' below rest met₁ met name hbelow hfresh hfirst hrest ihfirst ihrest =>
      intro active m fields hfields hmarks
      obtain ⟨field, fields, rfl, rfl, hnames⟩ := List.map_eq_cons_iff.mp hfields
      obtain ⟨hp, d, hd, rfl⟩ := below?_eq_some.mp hbelow
      have hnot : ¬ Begun m active field.2 := fun hbegun => hfresh ((hmarks _ d hd).mpr hbegun)
      have hinactive : .named field.2 ∉ active := fun hactive => hnot (.inl hactive)
      have hnone : m.finished.lookup (.named field.2) = none := by
        cases hlookup : m.finished.lookup (.named field.2) with
        | none => rfl
        | some t => exact absurd (.inr ⟨t, hlookup⟩) hnot
      obtain ⟨attributes, m₁, hbuild, hmarks₁, hmet⟩ | ⟨x, m₁, hbuild, hunknown⟩ :=
        ihfirst rfl (hmarks.enter hkeys hd)
      · exact (ihrest hnames (hmarks₁.finish _)).record hp hd
          (build_of_fields hd hnone hinactive hbuild) hmet
      · exact .inr ⟨x, m₁, buildFields_of_failure hp (build_of_failure hd hnone hinactive hbuild),
          .later (not_unknown_of_find? hd) (hunknown.append_right _)⟩

/-! ### A fresh scope -/

/-- Building fails on the first unknown name that is met, and otherwise succeeds. -/
structure EndsOn (types : TypeFactory) (met : List String) (result : Except UnknownType DataType) :
    Prop where
  fails : ∀ x, result = .error ⟨x⟩ ↔ types.FirstUnknown met x
  succeeds : (∃ t, result = .ok t) ↔ ∀ other ∈ met, ¬ types.Unknown other

theorem EndsOn.of_ok {t : DataType} (hknown : ∀ other ∈ met, ¬ types.Unknown other) :
    types.EndsOn met (.ok t) where
  fails := fun x => ⟨nofun, fun hfirst => absurd hfirst.unknown.2 (hknown x hfirst.unknown.1)⟩
  succeeds := ⟨fun _ => hknown, fun _ => ⟨t, rfl⟩⟩

theorem EndsOn.of_error {x : String} (hfirst : types.FirstUnknown met x) :
    types.EndsOn met (.error ⟨x⟩) where
  fails := by
    intro y
    rw [Except.error.injEq, UnknownType.mk.injEq]
    constructor
    · rintro rfl
      exact hfirst
    · exact hfirst.unique
  succeeds := by
    constructor
    · rintro ⟨t, ht⟩
      cases ht
    · exact fun hknown => absurd hfirst.unknown.2 (hknown x hfirst.unknown.1)

/-- With nothing recorded and nothing active a record type is built, or not, as the tour from its
name has it. -/
theorem Meets.endsOn (h : types.Meets name met) (hkeys : types.KeysApart)
    (hname : DataType.ofName? name = none ∨ ∃ d, types.find? name = some d) :
    types.EndsOn met (types.build [] name .empty).1 := by
  cases h with
  | unknown hnone =>
      have hprimitive : DataType.ofName? name = none := by
        refine hname.resolve_right ?_
        rintro ⟨d, hd⟩
        rw [hnone] at hd
        cases hd
      rw [build_of_unknown hnone]
      exact .of_error (.here ⟨hprimitive, hnone⟩)
  | @record d met seen hd htour =>
      have hnone : (Memo.empty).finished.lookup (.named name) = none := rfl
      have hfresh : .named name ∉ ([] : List TypeKey) := List.not_mem_nil
      have hempty : types.Marks [] [] .empty := by
        intro other e _
        simp [Begun, Memo.empty]
      have hknown := not_unknown_of_find? hd
      obtain ⟨attributes, m', hbuild, -, hmet⟩ | ⟨x, m', hbuild, hfirst⟩ :=
        htour.follows hkeys rfl (hempty.enter hkeys hd)
      · rw [build_of_fields hd hnone hfresh hbuild]
        exact .of_ok (List.forall_mem_cons.mpr ⟨hknown, hmet⟩)
      · rw [build_of_failure hd hnone hfresh hbuild]
        exact .of_error (.later hknown hfirst)

end TypeFactory

namespace Creation

variable {types : TypeFactory} {name : String} {b : Binding}

theorem run_record_fresh (types : TypeFactory) (name : String) (hb : b = none ∨ b = some .empty) :
    ((Creation.record name).run types b).1 = (types.build [] name .empty).1 := by
  rcases hb with rfl | rfl
  · rfl
  · rfl

theorem run_record_bound (types : TypeFactory) (name : String) (b : Binding) :
    ((Creation.record name).run types b).2.isBound = b.isBound := by
  cases b <;> rfl

end Creation

namespace TypeFactory

/-- **Building a record type ends, and it fails on the first unknown name that is met.**

The tour of the names from the one that is asked for ends, and there is one.  In a fresh scope
building fails on the first name of the tour that is neither a primitive nor described, and if
there is none it succeeds, which is when the name leads to described names only.  The name that is
asked for is looked up among the descriptions alone; if it is not there, that is the failure, even
if a primitive has this name.

Whatever is recorded and whatever is active, building with the active types kept by the resolver
comes to an end, in one way, and with success or not the active types are then what they were.  A
resolver is bound afterwards exactly if one was bound before. -/
theorem createStruct_ends {types : TypeFactory} (hkeys : types.KeysApart) (name : String) :
    (∃ met, types.Meets name met ∧ (∀ met', types.Meets name met' → met' = met) ∧
      ∀ b : Binding, b = none ∨ b = some .empty →
        (DataType.ofName? name = none ∨ (∃ d, types.find? name = some d) →
          types.EndsOn met ((Creation.record name).run types b).1 ∧
          ((∃ t, ((Creation.record name).run types b).1 = .ok t) ↔ types.Known name)) ∧
        (types.find? name = none →
          ((Creation.record name).run types b).1 = .error ⟨name⟩)) ∧
    (∀ u, (Failure.type u).message = "Validation Error: " ++ ("Unknown type name " ++ u.name)) ∧
    (∀ r, ∃ result r', types.Builds name r result r' ∧
      (∀ result' r'', types.Builds name r result' r'' → result' = result ∧ r'' = r') ∧
      (Creation.record name).run types (some r) = (result, some r') ∧ r'.active = r.active) ∧
    ∀ b : Binding, ((Creation.record name).run types b).2.isBound = b.isBound := by
  refine ⟨?_, fun u => rfl, fun r => ?_, Creation.run_record_bound types name⟩
  · obtain ⟨met, hmet⟩ := types.meets_total name
    refine ⟨met, hmet, fun met' => hmet.unique, fun b hb => ?_⟩
    rw [Creation.run_record_fresh types name hb]
    refine ⟨fun hname => ⟨hmet.endsOn hkeys hname, ?_⟩, fun hnone => ?_⟩
    · exact Asked.builds_iff hkeys .opened (.inl fun _ _ h => by simp at h) (.record name)
    · rw [build_of_unknown hnone]
  · obtain ⟨result, r', hbuilds⟩ := types.builds_total _ name r rfl
    refine ⟨result, r', hbuilds, fun result' r'' h => ?_, ?_, hbuilds.eq.2⟩
    · have hsame := (builds_iff.mp h).symm.trans (builds_iff.mp hbuilds)
      exact Prod.mk.inj hsame
    · show Binding.withResolver (types.createStruct name) (some r) = _
      simp only [Binding.withResolver, Binding.inScope, builds_iff.mp hbuilds]

/-- Of two types that lead to each other the first has a field of an unknown type; the second is
expanded on the way to it, the first not again. -/
theorem createStruct_ends_of_half_known :
    halfKnown.Meets "A" ["A", "B", "A", "Missing"] ∧
      halfKnown.FirstUnknown ["A", "B", "A", "Missing"] "Missing" ∧
      ((Creation.record "A").run halfKnown none).1 = .error ⟨"Missing"⟩ ∧
      ((Creation.record "A").run halfKnown none).2.isBound = false := by
  have hrun : ((Creation.record "A").run halfKnown none).1 = .error ⟨"Missing"⟩ := by
    cbv
  have hbelow : halfKnown.below? "B" = some ["A"] := by
    cbv
  have htour : halfKnown.Meets "A" ["A", "B", "A", "Missing"] :=
    .record rfl (.expand hbelow (by decide) (.pass (.inr (by decide)) .done)
      (.pass (.inl (by cbv)) .done))
  obtain ⟨⟨met, -, hunique, hends⟩, -, -, hbound⟩ := createStruct_ends halfKnown_keysApart "A"
  obtain ⟨hresult, -⟩ := (hends none (.inl rfl)).1 (.inr ⟨_, rfl⟩)
  rw [← hunique _ htour] at hresult
  exact ⟨htour, (hresult.fails "Missing").mp hrun, hrun, hbound none⟩

/-- Without a description of its own a primitive is unknown as a record, although no name is met
that is neither a primitive nor described. -/
theorem createStruct_of_primitive :
    TypeFactory.empty.KeysApart ∧ TypeFactory.empty.Meets "int" ["int"] ∧
      (∀ other ∈ ["int"], ¬ TypeFactory.empty.Unknown other) ∧
      ((Creation.record "int").run .empty none).1 = .error ⟨"int"⟩ ∧
      ¬ TypeFactory.empty.EndsOn ["int"] ((Creation.record "int").run .empty none).1 := by
  have hrun : ((Creation.record "int").run .empty none).1 = .error ⟨"int"⟩ := by
    cbv
  have hprimitive : DataType.ofName? "int" = some .int := by
    cbv
  have hknown : ∀ other ∈ ["int"], ¬ TypeFactory.empty.Unknown other := by
    rintro other hother ⟨hnone, -⟩
    obtain rfl := List.mem_singleton.mp hother
    rw [hprimitive] at hnone
    cases hnone
  refine ⟨fun d hd => absurd hd List.not_mem_nil, .unknown rfl, hknown, hrun, fun hends => ?_⟩
  obtain ⟨t, ht⟩ := hends.succeeds.mpr hknown
  rw [hrun] at ht
  cases ht

end TypeFactory

end StreamQuery
