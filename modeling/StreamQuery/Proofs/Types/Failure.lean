/-
What a failed construction leaves behind.

A record type cannot be built if its fields lead to a name that nothing describes.  Parts of it may
be finished by then, and the scope keeps them: among them types that refer to the one that failed
and hold a placeholder for it.  Such a type is later found finished although it leads to an unknown
name, so the memo is not transparent.

How far that goes is an invariant of the memo.  `Kept` says that a field of a finished type names a
finished type, or else one that leads back to it and is either being built or was given up.  While
a type is built the second case is the usual one; when the outermost type is finished nothing is
being built any more, and what remains of the case are the types that were given up.  So a type that
is found although it could not be built afresh leads to two types that lead to each other, and an
earlier construction failed on one of them.
-/
import StreamQuery.Proofs.Types.Expansion

namespace StreamQuery

/-! ### What a scope was asked for -/

namespace TypeFactory

/-- Every name that a name leads to is described. -/
def Known (types : TypeFactory) (name : String) : Prop :=
  ∀ other, types.Leads name other → ∃ d, types.find? other = some d

end TypeFactory

namespace Creation

/-- What is asked for leads to a name.  A primitive leads nowhere. -/
def Reaches (types : TypeFactory) : Creation → String → Prop
  | .type name, other => DataType.ofName? name = none ∧ types.Leads name other
  | .record name, other => types.Leads name other

/-- Every name that is reached is described. -/
def Known (types : TypeFactory) (c : Creation) : Prop :=
  ∀ other, c.Reaches types other → ∃ d, types.find? other = some d

end Creation

/-- A scope that was asked for types one after the other: the creations so far with what came of
them, the last one first. -/
inductive Asked (types : TypeFactory) :
    Binding → List (Creation × Except UnknownType DataType) → Prop where
  | opened : Asked types (some .empty) []
  | asked {b b' : Binding} {made : List (Creation × Except UnknownType DataType)} {c : Creation}
      {result : Except UnknownType DataType} (hbefore : Asked types b made)
      (hrun : c.run types b = (result, b')) : Asked types b' ((c, result) :: made)

namespace TypeFactory

variable {types : TypeFactory} {m m' : Memo} {active : List TypeKey} {name self : String}
  {d : Descriptor} {t : DataType} {u : UnknownType} {fields : List (String × String)}
  {attributes : List Attribute} {lost lost' : String → Prop}

/-! ### How building fails -/

/-- A record type cannot be built if it is not described, or if one of its fields cannot. -/
theorem build_fails (h : types.build active name m = (.error u, m')) :
    (types.find? name = none ∧ u = ⟨name⟩ ∧ m' = m) ∨
      ∃ d, types.find? name = some d ∧ .named name ∉ active ∧
        types.buildFields (.named name :: active) d.fields m = (.error u, m') := by
  rw [build] at h
  split at h
  · rename_i hnone
    cases h
    exact .inl ⟨hnone, rfl, rfl⟩
  · rename_i d hd
    right
    refine ⟨d, hd, ?_⟩
    unfold Memo.finished? at h
    cases hfinished : m.finished.lookup (.named name) with
    | some t =>
        simp only [hfinished] at h
        cases h
    | none =>
        simp only [hfinished] at h
        split at h
        · cases h
        · rename_i hfresh
          split at h
          · rename_i hfields
            cases h
            exact ⟨hfresh, hfields⟩
          · cases h

/-- Fields cannot be built if one of them cannot, after those before it were built.  What building
keeps holds of the memo by then. -/
theorem buildFields_fails {I : Memo → Prop}
    (hkeeps : ∀ field ∈ fields, ∀ {m t m'}, I m → DataType.ofName? field.2 = none →
      types.build active field.2 m = (.ok t, m') → I m')
    (hm : I m) (h : types.buildFields active fields m = (.error u, m')) :
    ∃ field ∈ fields, DataType.ofName? field.2 = none ∧ ∃ m₁, I m₁ ∧
      types.build active field.2 m₁ = (.error u, m') := by
  induction fields generalizing m with
  | nil =>
      rw [buildFields] at h
      cases h
  | cons field rest ih =>
      have hrest : ∀ {m}, I m → types.buildFields active rest m = (.error u, m') →
          ∃ f ∈ field :: rest, DataType.ofName? f.2 = none ∧ ∃ m₁, I m₁ ∧
            types.build active f.2 m₁ = (.error u, m') := by
        intro m hm h
        obtain ⟨f, hf, hfound⟩ := ih (fun f hf => hkeeps f (List.mem_cons_of_mem _ hf)) hm h
        exact ⟨f, List.mem_cons_of_mem _ hf, hfound⟩
      rw [buildFields] at h
      cases hp : DataType.ofName? field.2 with
      | some p =>
          simp only [hp] at h
          split at h
          · rename_i hfailed
            cases h
            exact hrest hm hfailed
          · cases h
      | none =>
          simp only [hp] at h
          split at h
          · rename_i hfailed
            cases h
            exact ⟨field, List.mem_cons_self, hp, m, hm, hfailed⟩
          · rename_i hbuilt
            split at h
            · rename_i hfailed
              cases h
              exact hrest (hkeeps field List.mem_cons_self hm hp hbuilt) hfailed
            · cases h

/-- **A construction fails only on a name that it leads to and that nothing describes**, whatever is
recorded. -/
theorem unknown_of_build : ∀ (left : Nat) {active : List TypeKey} {name : String} {m m' : Memo},
    types.inactive active = left → types.build active name m = (.error u, m') →
    types.Leads name u.name ∧ types.find? u.name = none := by
  intro left
  induction left using Nat.strongRecOn with
  | _ left ih =>
      intro active name m m' hleft h
      obtain ⟨hnone, rfl, -⟩ | ⟨d, hd, hfresh, hfields⟩ := build_fails h
      · exact ⟨.refl, hnone⟩
      · obtain ⟨field, hfield, hp, m₁, -, hfailed⟩ :=
          buildFields_fails (I := fun _ => True) (fun _ _ _ _ _ _ _ _ => trivial) trivial hfields
        have hless : types.inactive (.named name :: active) < left := hleft ▸ inactive_lt hd hfresh
        obtain ⟨hleads, hnone⟩ := ih _ hless rfl hfailed
        exact ⟨.head (refers_of_find? hd field hfield hp) hleads, hnone⟩

/-! ### What is kept -/

/-- A name is that of a type that is finished or being built. -/
def Begun (m : Memo) (active : List TypeKey) (name : String) : Prop :=
  .named name ∈ active ∨ ∃ t, m.finished.lookup (.named name) = some t

/-- What holds of the finished types, whatever failed before: what the fields of one name is
described, and finished as well, unless it leads back and is being built or was given up. -/
def Kept (types : TypeFactory) (m : Memo) (active : List TypeKey) (lost : String → Prop) : Prop :=
  ∀ k t, m.finished.lookup k = some t → ∃ d, types.find? d.name = some d ∧ k = .named d.name ∧
    ∀ other, types.Refers d.name other → (∃ e, types.find? other = some e) ∧
      ((∃ u, m.finished.lookup (.named other) = some u) ∨
        types.Leads other d.name ∧ (.named other ∈ active ∨ lost other))

/-- The finished types stay finished. -/
def Stays (m m' : Memo) : Prop :=
  ∀ k t, m.finished.lookup k = some t → ∃ t', m'.finished.lookup k = some t'

theorem kept_empty (types : TypeFactory) : types.Kept .empty [] lost := by
  intro k t h
  cases h

theorem Kept.of_finished (h : types.Kept m active lost) (hsame : m'.finished = m.finished) :
    types.Kept m' active lost := by
  unfold Kept
  rw [hsame]
  exact h

/-- More may be given up. -/
theorem Kept.mono (h : types.Kept m active lost) (hlost : ∀ other, lost other → lost' other) :
    types.Kept m active lost' := by
  intro k t ht
  obtain ⟨d, hd, hk, hfields⟩ := h k t ht
  refine ⟨d, hd, hk, ?_⟩
  intro other hrefers
  obtain ⟨he, hother⟩ := hfields other hrefers
  exact ⟨he, hother.imp_right (And.imp_right (Or.imp_right (hlost other)))⟩

/-- More may be being built. -/
theorem Kept.enter (h : types.Kept m active lost) (key : TypeKey) :
    types.Kept m (key :: active) lost := by
  intro k t ht
  obtain ⟨d, hd, hk, hfields⟩ := h k t ht
  refine ⟨d, hd, hk, ?_⟩
  intro other hrefers
  obtain ⟨he, hother⟩ := hfields other hrefers
  exact ⟨he, hother.imp_right (And.imp_right (Or.imp_left (List.mem_cons_of_mem _)))⟩

theorem Begun.mono {other : String} (h : Begun m active other) (hstays : Stays m m') :
    Begun m' active other :=
  h.imp_right fun ⟨t, ht⟩ => hstays _ t ht

theorem Stays.refl (m : Memo) : Stays m m :=
  fun _ t ht => ⟨t, ht⟩

theorem Stays.trans {m'' : Memo} (h : Stays m m') (h' : Stays m' m'') : Stays m m'' := by
  intro k t ht
  obtain ⟨t', ht'⟩ := h k t ht
  exact h' k t' ht'

theorem Stays.finish (h : Stays m m') (key : TypeKey) (t : DataType) :
    Stays m ((m'.finish key t).setResolution key t) := by
  intro k u hu
  rw [Memo.setResolution_finished, Memo.lookup_finish]
  split
  · exact ⟨t, rfl⟩
  · exact h k u hu

/-- A type is finished whose fields name finished types and types that are being built. -/
theorem Kept.finish (h : types.Kept m (.named name :: active) lost) (hkeys : types.KeysApart)
    (hd : types.find? name = some d) (hlead : types.LeadTo active name)
    (hfields : ∀ other, types.Refers name other → (∃ e, types.find? other = some e) ∧
      Begun m (.named name :: active) other) :
    types.Kept ((m.finish (.named name) t).setResolution (.named name) t) active lost := by
  intro k u hu
  rw [Memo.setResolution_finished, Memo.lookup_finish] at hu
  -- what was finished or being built is now finished or still being built
  have hnow : ∀ other, .named other ∈ (.named name :: active : List TypeKey) →
      (∃ u, (if TypeKey.named other = .named name then some t
        else m.finished.lookup (.named other)) = some u) ∨ .named other ∈ active := by
    intro other hmem
    rcases List.mem_cons.mp hmem with hsame | hactive
    · exact .inl ⟨t, if_pos hsame⟩
    · exact .inr hactive
  have hstill : ∀ other, (∃ u, m.finished.lookup (.named other) = some u) →
      ∃ u, (if TypeKey.named other = .named name then some t
        else m.finished.lookup (.named other)) = some u := by
    rintro other ⟨u, hu⟩
    split
    · exact ⟨t, rfl⟩
    · exact ⟨u, hu⟩
  simp only [Memo.setResolution_finished, Memo.lookup_finish]
  split at hu
  · rename_i hk
    refine ⟨d, by rw [find?_name hd]; exact hd, by rw [find?_name hd]; exact hk, ?_⟩
    intro other hrefers
    rw [find?_name hd] at hrefers ⊢
    obtain ⟨⟨e, he⟩, hbegun⟩ := hfields other hrefers
    refine ⟨⟨e, he⟩, ?_⟩
    rcases hbegun with hmem | hfinished
    · obtain ⟨a, d', hkey, ha, hleads⟩ := hlead.enter hd _ hmem
      obtain rfl := hkeys.eq_of_key he ha hkey
      exact (hnow other hmem).imp_right fun hactive => ⟨hleads, .inl hactive⟩
    · exact .inl (hstill other hfinished)
  · obtain ⟨d', hd', hk', hfields'⟩ := h k u hu
    refine ⟨d', hd', hk', ?_⟩
    intro other hrefers
    obtain ⟨he, hfinished | ⟨hleads, hmem | hlost⟩⟩ := hfields' other hrefers
    · exact ⟨he, .inl (hstill other hfinished)⟩
    · exact ⟨he, (hnow other hmem).imp_right fun hactive => ⟨hleads, .inl hactive⟩⟩
    · exact ⟨he, .inr ⟨hleads, .inr hlost⟩⟩

/-- A type is given up. -/
theorem Kept.give_up (h : types.Kept m (.named name :: active) lost) (hkeys : types.KeysApart)
    (hd : types.find? name = some d) (hlost : lost name) : types.Kept m active lost := by
  intro k t ht
  obtain ⟨d', hd', hk, hfields⟩ := h k t ht
  refine ⟨d', hd', hk, ?_⟩
  intro other hrefers
  obtain ⟨⟨e, he⟩, hother⟩ := hfields other hrefers
  refine ⟨⟨e, he⟩, hother.imp_right (And.imp_right ?_)⟩
  rintro (hmem | hlost')
  · rcases List.mem_cons.mp hmem with hsame | hactive
    · obtain rfl := hkeys.eq_of_key he hd hsame
      exact .inr hlost
    · exact .inl hactive
  · exact .inr hlost'

/-! ### Building keeps it -/

/-- What building fields keeps if building what they name keeps it. -/
theorem kept_buildFields
    (hbuild : ∀ field ∈ fields, ∀ {m t m'}, types.Kept m active lost →
      DataType.ofName? field.2 = none → types.build active field.2 m = (.ok t, m') →
      types.Kept m' active lost ∧ Stays m m' ∧ Begun m' active field.2)
    (h : types.Kept m active lost)
    (hok : types.buildFields active fields m = (.ok attributes, m')) :
    types.Kept m' active lost ∧ Stays m m' ∧
      ∀ field ∈ fields, DataType.ofName? field.2 = none →
        (∃ e, types.find? field.2 = some e) ∧ Begun m' active field.2 := by
  induction fields generalizing m attributes with
  | nil =>
      rw [buildFields] at hok
      cases hok
      exact ⟨h, .refl _, by simp⟩
  | cons field rest ih =>
      obtain ⟨t, m₁, more, rfl, hrest, hfirst⟩ := buildFields_cons hok
      have hbuild' := fun f hf => @hbuild f (List.mem_cons_of_mem _ hf)
      cases hp : DataType.ofName? field.2 with
      | some p =>
          rw [hp] at hfirst
          obtain ⟨rfl, rfl⟩ := hfirst
          obtain ⟨hkept, hstays, hfields⟩ := ih hbuild' h hrest
          refine ⟨hkept, hstays, List.forall_mem_cons.mpr ⟨?_, hfields⟩⟩
          rw [hp]
          rintro ⟨⟩
      | none =>
          rw [hp] at hfirst
          obtain ⟨hkept₁, hstays₁, hbegun⟩ := hbuild field List.mem_cons_self h hp hfirst
          obtain ⟨hkept, hstays, hfields⟩ := ih hbuild' hkept₁ hrest
          obtain ⟨e, he, -⟩ := build_cases hfirst
          exact ⟨hkept, hstays₁.trans hstays,
            List.forall_mem_cons.mpr ⟨fun _ => ⟨⟨e, he⟩, hbegun.mono hstays⟩, hfields⟩⟩

theorem kept_build (hkeys : types.KeysApart) : ∀ (left : Nat) {active : List TypeKey}
    {name : String} {m m' : Memo} {t : DataType}, types.inactive active = left →
    types.Kept m active lost → types.LeadTo active name →
    types.build active name m = (.ok t, m') →
    types.Kept m' active lost ∧ Stays m m' ∧ Begun m' active name := by
  intro left
  induction left using Nat.strongRecOn with
  | _ left ih =>
      intro active name m m' t hleft h hlead hok
      obtain ⟨d, hd, ⟨hfinished, rfl⟩ | ⟨hactive, hplaceholder⟩ |
        ⟨hfresh, -, attributes, m₁, hfields, rfl, rfl⟩⟩ := build_cases hok
      · exact ⟨h.of_finished rfl, .refl m, .inr ⟨t, hfinished⟩⟩
      · obtain rfl : m' = (m.placeholder (.named name)).2 := congrArg Prod.snd hplaceholder
        have hsame := m.placeholder_finished (.named name)
        refine ⟨h.of_finished hsame, ?_, .inl hactive⟩
        intro k t ht
        exact ⟨t, by rw [hsame]; exact ht⟩
      · have hless : types.inactive (.named name :: active) < left := hleft ▸ inactive_lt hd hfresh
        obtain ⟨hkept, hstays, hbegun⟩ := kept_buildFields
          (fun field hfield _ _ _ h' hp hok' => ih _ hless rfl h'
            ((hlead.enter hd).step (refers_of_find? hd field hfield hp)) hok')
          (h.enter _) hfields
        refine ⟨hkept.finish hkeys hd hlead ?_, hstays.finish _ _, .inr ⟨.struct attributes, ?_⟩⟩
        · rintro other ⟨d', hd', field, hfield, rfl, hp⟩
          rw [hd] at hd'
          cases hd'
          exact hbegun field hfield hp
        · rw [Memo.setResolution_finished, Memo.lookup_finish, if_pos rfl]

/-- The types that a failed construction gives up are among those that it leads to and that lead to
an unknown name. -/
theorem kept_of_failure (hkeys : types.KeysApart) : ∀ (left : Nat) {active : List TypeKey}
    {name : String} {m m' : Memo} {lost : String → Prop}, types.inactive active = left →
    types.Kept m active lost → types.LeadTo active name →
    types.build active name m = (.error u, m') →
    types.Kept m' active fun other =>
      lost other ∨ types.Leads name other ∧ ¬ types.Known other := by
  intro left
  induction left using Nat.strongRecOn with
  | _ left ih =>
      intro active name m m' lost hleft h hlead hfailed
      have hunknown : ¬ types.Known name := by
        intro hknown
        obtain ⟨hleads, hnone⟩ := unknown_of_build _ rfl hfailed
        obtain ⟨e, he⟩ := hknown _ hleads
        rw [hnone] at he
        cases he
      obtain ⟨-, -, rfl⟩ | ⟨d, hd, hfresh, hfields⟩ := build_fails hfailed
      · exact h.mono fun _ => .inl
      · have hless : types.inactive (.named name :: active) < left := hleft ▸ inactive_lt hd hfresh
        have hstep := fun field hfield hp =>
          (hlead.enter hd).step (refers_of_find? hd field hfield hp)
        obtain ⟨field, hfield, hp, m₁, hkept₁, hfailed₁⟩ := buildFields_fails
          (I := fun m => types.Kept m (.named name :: active) lost)
          (fun field hfield _ _ _ h' hp hok =>
            (kept_build hkeys _ rfl h' (hstep field hfield hp) hok).1) (h.enter _) hfields
        have hkept := ih _ hless rfl hkept₁ (hstep field hfield hp) hfailed₁
        have hrefers := refers_of_find? hd field hfield hp
        refine (hkept.mono ?_).give_up hkeys hd (.inr ⟨.refl, hunknown⟩)
        exact fun other => Or.imp_right (And.imp_left (.head hrefers))

/-! ### What is found although it could not be built -/

/-- A name that a finished type leads to is finished as well, when nothing is being built, or on the
way to it two different types lead to each other and the second was given up. -/
theorem Kept.leads (h : types.Kept m [] lost) (hkeys : types.KeysApart)
    (hd : types.find? name = some d) (hfinished : m.finished.lookup (.named name) = some t)
    {other : String} (hleads : types.Leads name other) :
    ((∃ e, types.find? other = some e) ∧ ∃ u, m.finished.lookup (.named other) = some u) ∨
      ∃ x y, types.Leads name x ∧ types.Refers x y ∧ types.Leads y x ∧ x ≠ y ∧ lost y := by
  induction hleads with
  | refl => exact .inl ⟨⟨d, hd⟩, t, hfinished⟩
  | @tail x y hleads hrefers ih =>
      rcases ih with ⟨⟨e, he⟩, u, hu⟩ | hcycle
      · obtain ⟨d', hd', hk, hfields⟩ := h _ u hu
        obtain rfl := hkeys.eq_of_key he hd' hk
        obtain ⟨hy, hfinished' | ⟨hback, hgone⟩⟩ := hfields y hrefers
        · exact .inl ⟨hy, hfinished'⟩
        · by_cases hy' : ∃ v, m.finished.lookup (.named y) = some v
          · exact .inl ⟨hy, hy'⟩
          · refine .inr ⟨d'.name, y, hleads, hrefers, hback, ?_, hgone.resolve_left (by simp)⟩
            rintro rfl
            exact hy' ⟨u, hu⟩
      · exact .inr hcycle

/-- A type could be built although not all that it leads to is described: then on the way two
different types lead to each other, one of which was given up. -/
theorem Kept.known_of_build (h : types.Kept m [] lost) (hkeys : types.KeysApart)
    (hok : types.build [] name m = (.ok t, m')) :
    types.Known name ∨ ∃ x y, types.Leads name x ∧ types.Refers x y ∧ types.Leads y x ∧ x ≠ y ∧
      lost y := by
  obtain ⟨hkept, -, hbegun⟩ := kept_build hkeys _ rfl h (fun k hk => by simp at hk) hok
  obtain ⟨d, hd, -⟩ := build_cases hok
  obtain ⟨u, hu⟩ := hbegun.resolve_left (by simp)
  by_cases hcycle : ∃ x y, types.Leads name x ∧ types.Refers x y ∧ types.Leads y x ∧ x ≠ y ∧ lost y
  · exact .inr hcycle
  · left
    intro other hleads
    exact ((hkept.leads hkeys hd hu hleads).resolve_right hcycle).1

end TypeFactory

/-! ### Scopes -/

variable {types : TypeFactory} {b : Binding} {made : List (Creation × Except UnknownType DataType)}

/-- What the creations so far have given up. -/
def GivenUp (types : TypeFactory) (made : List (Creation × Except UnknownType DataType))
    (name : String) : Prop :=
  ∃ c u, (c, .error u) ∈ made ∧ c.Reaches types name ∧ ¬ types.Known name

/-- A creation that is not answered at once builds the record of its name. -/
theorem Creation.run_bound (types : TypeFactory) (c : Creation) (r : Resolver) :
    (∃ t, c.run types (some r) = (.ok t, some r) ∧ ∀ other, ¬ c.Reaches types other) ∨
      ∃ name, c.Reaches types = types.Leads name ∧
        c.run types (some r) = ((types.build r.active name r.toMemo).1,
          some { r with toMemo := (types.build r.active name r.toMemo).2 }) := by
  cases c with
  | record name => exact .inr ⟨name, rfl, rfl⟩
  | type name =>
      cases hp : DataType.ofName? name with
      | some p =>
          refine .inl ⟨p, ?_, fun other h => ?_⟩
          · show Binding.withResolver (types.createType name) (some r) = _
            simp only [Binding.withResolver, Binding.inScope, TypeFactory.createType, hp]
          · rw [Creation.Reaches, hp] at h
            cases h.1
      | none =>
          refine .inr ⟨name, ?_, ?_⟩
          · funext other
            simp only [Creation.Reaches, hp, true_and]
          · show Binding.withResolver (types.createType name) (some r) = _
            simp only [Binding.withResolver, Binding.inScope, TypeFactory.createType, hp]
            rfl

/-- Between two creations no type is being built, and what is kept is kept. -/
theorem Asked.kept (hkeys : types.KeysApart) (h : Asked types b made) :
    ∃ r, b = some r ∧ r.active = [] ∧ types.Kept r.toMemo [] (GivenUp types made) := by
  induction h with
  | opened => exact ⟨.empty, rfl, rfl, types.kept_empty⟩
  | @asked b b' made c result _ hrun ih =>
      obtain ⟨r, rfl, hactive, hkept⟩ := ih
      have hmore : ∀ other, GivenUp types made other →
          GivenUp types ((c, result) :: made) other := by
        rintro other ⟨c', u, hmem, hgone⟩
        exact ⟨c', u, List.mem_cons_of_mem _ hmem, hgone⟩
      obtain ⟨t, hrun', -⟩ | ⟨name, hreaches, hrun'⟩ := c.run_bound types r
      · rw [hrun'] at hrun
        cases hrun
        exact ⟨r, rfl, hactive, hkept.mono hmore⟩
      · have hlead : types.LeadTo [] name := fun k hk => by simp at hk
        cases hbuild : types.build r.active name r.toMemo with
        | mk built m =>
            rw [hrun', hbuild] at hrun
            rw [hactive] at hbuild
            cases hrun
            refine ⟨_, rfl, hactive, ?_⟩
            cases built with
            | ok t => exact (TypeFactory.kept_build hkeys _ rfl (hkept.mono hmore) hlead hbuild).1
            | error u =>
                refine (TypeFactory.kept_of_failure hkeys _ rfl hkept hlead hbuild).mono ?_
                rintro other (hgone | ⟨hleads, hunknown⟩)
                · exact hmore other hgone
                · exact ⟨c, u, List.mem_cons_self, by rw [hreaches]; exact hleads, hunknown⟩

/-- A creation fails only on a name that it leads to and that nothing describes. -/
theorem Creation.unknown_of_run {c : Creation} {r : Resolver} {u : UnknownType}
    (h : (c.run types (some r)).1 = .error u) :
    c.Reaches types u.name ∧ types.find? u.name = none := by
  obtain ⟨t, hrun, -⟩ | ⟨name, hreaches, hrun⟩ := c.run_bound types r
  · rw [hrun] at h
    cases h
  · rw [hrun] at h
    rw [hreaches]
    exact TypeFactory.unknown_of_build _ rfl (Prod.ext h rfl)

/-- What is asked for is built if all its names are described. -/
theorem Creation.Known.builds {c : Creation} (h : c.Known types) (r : Resolver) :
    ∃ t, (c.run types (some r)).1 = .ok t := by
  cases hrun : (c.run types (some r)).1 with
  | ok t => exact ⟨t, rfl⟩
  | error u =>
      obtain ⟨hreaches, hnone⟩ := Creation.unknown_of_run hrun
      obtain ⟨d, hd⟩ := h u.name hreaches
      rw [hnone] at hd
      cases hd

/-- What is built although not all its names are described leads to a type that was given up. -/
theorem Asked.known_of_run (hkeys : types.KeysApart) (h : Asked types b made) {c : Creation}
    {t : DataType} (hok : (c.run types b).1 = .ok t) :
    c.Known types ∨ ∃ x y, c.Reaches types x ∧ types.Refers x y ∧ types.Leads y x ∧ x ≠ y ∧
      GivenUp types made y := by
  obtain ⟨r, rfl, hactive, hkept⟩ := h.kept hkeys
  obtain ⟨-, -, hnowhere⟩ | ⟨name, hreaches, hrun⟩ := c.run_bound types r
  · exact .inl fun other hother => absurd hother (hnowhere other)
  · rw [hrun, hactive] at hok
    have hknown := hkept.known_of_build hkeys (Prod.ext hok rfl)
    unfold Creation.Known
    rw [hreaches]
    exact hknown

/-- Where no construction has failed or no two different types lead to each other, what is built has
only names that are described. -/
theorem Asked.builds_iff (hkeys : types.KeysApart) (h : Asked types b made)
    (hharmless : (∀ failed u, (failed, .error u) ∉ made) ∨ types.Layered) (c : Creation) :
    (∃ t, (c.run types b).1 = .ok t) ↔ c.Known types := by
  constructor
  · rintro ⟨t, hok⟩
    rcases h.known_of_run hkeys hok with hknown | ⟨x, y, -, hrefers, hback, hne, hgone⟩
    · exact hknown
    · obtain ⟨failed, u, hmem, -, -⟩ := hgone
      rcases hharmless with hnone | hlayered
      · exact absurd hmem (hnone failed u)
      · exact absurd (hlayered x y (.single hrefers) hback) hne
  · intro hknown
    obtain ⟨r, rfl, -⟩ := h.kept hkeys
    exact hknown.builds r

/-! ### A type that is found although it cannot be built -/

/-- Two types that lead to each other; the first has a field of a type that nothing describes. -/
def TypeFactory.halfKnown : TypeFactory :=
  .ofList [⟨"A", [("b", "B"), ("m", "Missing")]⟩, ⟨"B", [("a", "A")]⟩]

namespace TypeFactory

theorem halfKnown_keysApart : halfKnown.KeysApart := by
  have hapart : TypeKey.named "B" ≠ TypeKey.named "A" := by decide +kernel
  have hall : halfKnown.descriptors
      = [⟨"B", [("a", "A")]⟩, ⟨"A", [("b", "B"), ("m", "Missing")]⟩] := rfl
  unfold KeysApart
  rw [hall]
  simp [hapart, Ne.symm hapart]

theorem halfKnown_unknown : ¬ halfKnown.Known "B" := by
  intro hknown
  have hA : halfKnown.Refers "B" "A" :=
    ⟨⟨"B", [("a", "A")]⟩, rfl, ("a", "A"), by simp, rfl, by cbv⟩
  have hMissing : halfKnown.Refers "A" "Missing" :=
    ⟨⟨"A", [("b", "B"), ("m", "Missing")]⟩, rfl, ("m", "Missing"), by simp, rfl, by cbv⟩
  obtain ⟨d, hd⟩ := hknown "Missing" (.head hA (.single hMissing))
  have hnone : halfKnown.find? "Missing" = none := rfl
  rw [hnone] at hd
  cases hd

/-- Asked for the first of the two types, the scope fails, and then it has the second. -/
theorem halfKnown_asked : ∃ b, Asked halfKnown b [(.record "A", .error ⟨"Missing"⟩)] ∧
    ∃ t, ((Creation.record "B").run halfKnown b).1 = .ok t := by
  have hfails : ((Creation.record "A").run halfKnown (some .empty)).1 = .error ⟨"Missing"⟩ := by
    cbv
  exact ⟨_, .asked .opened (Prod.ext hfails rfl), _, by cbv⟩

end TypeFactory

/-- **A failed construction can hide an unknown name only where types lead to each other.**

In a scope types were asked for in any order, some with success and some not.  Then nothing is left
being built, and for whatever is asked for next:

* it fails only on a name that it leads to and that nothing describes, so a type all of whose names
  are described is always built;
* if it is built although it leads to a name that nothing describes, an earlier construction that
  failed gave up a type that it leads to, by way of another type that leads there and back;
* so it is built exactly when it would be in a fresh scope, if no construction has failed or if no
  two different types lead to each other;
* and in a fresh scope it is built exactly when all its names are described. -/
theorem Asked.hides_only_in_cycles (hkeys : types.KeysApart) (h : Asked types b made)
    (c : Creation) :
    (∃ r, b = some r ∧ r.active = []) ∧
    (∀ u, (c.run types b).1 = .error u → c.Reaches types u.name ∧ types.find? u.name = none) ∧
    (∀ t, (c.run types b).1 = .ok t → c.Known types ∨
      ∃ failed u x y, (failed, .error u) ∈ made ∧ failed.Reaches types y ∧ ¬ types.Known y ∧
        c.Reaches types x ∧ types.Refers x y ∧ types.Leads y x ∧ x ≠ y) ∧
    ((∀ failed u, (failed, .error u) ∉ made) ∨ types.Layered →
      ((∃ t, (c.run types b).1 = .ok t) ↔ ∃ t, (c.run types none).1 = .ok t)) ∧
    ((∃ t, (c.run types none).1 = .ok t) ↔ c.Known types) := by
  have hfresh : (∃ t, (c.run types none).1 = .ok t) ↔ c.Known types := by
    have hsame : (c.run types none).1 = (c.run types (some .empty)).1 := by cases c <;> rfl
    rw [hsame]
    exact Asked.builds_iff hkeys .opened (.inl fun _ _ h => by simp at h) c
  obtain ⟨r, rfl, hactive, -⟩ := h.kept hkeys
  refine ⟨⟨r, rfl, hactive⟩, fun u => Creation.unknown_of_run, ?_, ?_, hfresh⟩
  · intro t hok
    refine (h.known_of_run hkeys hok).imp_right ?_
    rintro ⟨x, y, hreaches, hrefers, hback, hne, failed, u, hmem, hfailed, hunknown⟩
    exact ⟨failed, u, x, y, hmem, hfailed, hunknown, hreaches, hrefers, hback, hne⟩
  · intro hharmless
    rw [h.builds_iff hkeys hharmless, hfresh]

/-- The second of two types that lead to each other is built after the first has failed, so the two
lead to each other. -/
theorem Asked.hides_only_in_cycles_of_half_known :
    ∃ x y, TypeFactory.halfKnown.Leads "B" x ∧ TypeFactory.halfKnown.Refers x y ∧
      TypeFactory.halfKnown.Leads y x ∧ x ≠ y := by
  obtain ⟨b, hasked, t, hok⟩ := TypeFactory.halfKnown_asked
  obtain ⟨-, -, hhidden, -⟩ :=
    Asked.hides_only_in_cycles TypeFactory.halfKnown_keysApart hasked (.record "B")
  rcases hhidden t hok with hknown | ⟨_, _, x, y, -, -, -, hx, hrefers, hback, hne⟩
  · exact absurd hknown TypeFactory.halfKnown_unknown
  · exact ⟨x, y, hx, hrefers, hback, hne⟩

/-- A failed construction can be observed: it leaves a type finished that a fresh scope refuses. -/
theorem Asked.failure_is_observed :
    ∃ b, Asked .halfKnown b [(.record "A", .error ⟨"Missing"⟩)] ∧
      (∃ t, ((Creation.record "B").run .halfKnown b).1 = .ok t) ∧
      ((Creation.record "B").run .halfKnown none).1 = .error ⟨"Missing"⟩ ∧
      ¬ TypeFactory.halfKnown.Known "B" ∧ TypeFactory.halfKnown.KeysApart := by
  obtain ⟨b, hasked, hok⟩ := TypeFactory.halfKnown_asked
  exact ⟨b, hasked, hok, by cbv, TypeFactory.halfKnown_unknown, TypeFactory.halfKnown_keysApart⟩

end StreamQuery
