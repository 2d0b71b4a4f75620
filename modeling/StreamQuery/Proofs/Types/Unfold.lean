/-
Types unfold to their descriptions.

Descriptions that refer to each other unfold to trees without end.  The types built from
them are finite, and how they look depends on which was built first: where one was
active there is a placeholder, elsewhere the finished type.  Read field by field through
the scope in which they were built, they are all alike: a path of field positions leads
from a type to the type of what the same path leads to in the descriptions.

The argument is about one step.  When no type is active, every placeholder that was
handed out has the finished type of its name behind it, so reading the fields of a
finished type gives primitives and finished types again.
-/
import Mathlib
import StreamQuery.Proofs.Types.Build
import StreamQuery.Types.Scope

namespace StreamQuery

/-! ### Descriptions -/

/-- What the name of a type declares. -/
inductive Declared where
  | primitive (t : DataType)
  | record (d : Descriptor)

/-- The fields of what is declared; a primitive has none. -/
def Declared.fields : Declared → List (String × String)
  | .primitive _ => []
  | .record d => d.fields

namespace TypeFactory

/-- What the name of a type declares; a primitive wins over a description of its name. -/
def declared (types : TypeFactory) (name : String) : Option Declared :=
  match DataType.ofName? name with
  | some t => some (.primitive t)
  | none => (types.find? name).map .record

/-- What a path of field positions leads to. -/
def reach (types : TypeFactory) : Declared → List Nat → Option Declared
  | e, [] => some e
  | e, i :: path =>
    e.fields[i]?.bind fun field => (types.declared field.2).bind fun e' => reach types e' path

/-- The names of descriptions have different keys. -/
def KeysApart (types : TypeFactory) : Prop :=
  ∀ d ∈ types.descriptors, ∀ e ∈ types.descriptors,
    TypeKey.named d.name = TypeKey.named e.name → d.name = e.name

end TypeFactory

/-! ### Types in a scope -/

namespace Binding

/-- The type that a path of field positions leads to, as the scope shows it. -/
def follow (b : Binding) : DataType → List Nat → Option DataType
  | t, [] => some t
  | t, i :: path => (b.fieldList t)[i]?.bind fun a => follow b a.type path

/-- A type is what is declared, with the names of the fields in order. -/
def Shows (b : Binding) (t : DataType) : Declared → Prop
  | .primitive p => t = p
  | .record d => (∃ attributes, t = .struct attributes) ∧
    (b.fieldList t).map Attribute.name = d.fields.map Prod.fst

end Binding

/-- What a scope is asked for. -/
inductive Creation where
  /-- The type of a name. -/
  | type (name : String)
  /-- The record type of a description, even if a primitive has its name. -/
  | record (name : String)

namespace Creation

/-- The type that is asked for, made with the resolver of the scope. -/
def run (types : TypeFactory) : Creation → Binding → Except UnknownType DataType × Binding
  | .type name => Binding.withResolver (types.createType name)
  | .record name => Binding.withResolver (types.createStruct name)

/-- What is declared under the name that is asked for. -/
def declared (types : TypeFactory) : Creation → Option Declared
  | .type name => types.declared name
  | .record name => (types.find? name).map .record

end Creation

/-- A scope in which types are created one after the other, each with success: the creations so
far with their types, the last one first. -/
inductive Scope (types : TypeFactory) : Binding → List (Creation × DataType) → Prop where
  | opened : Scope types (some .empty) []
  | created {b b' : Binding} {made : List (Creation × DataType)} {c : Creation} {t : DataType}
      (hbefore : Scope types b made) (hrun : c.run types b = (.ok t, b')) :
      Scope types b' ((c, t) :: made)

namespace TypeFactory

variable {types : TypeFactory} {m m' : Memo} {r : Resolver} {t : DataType} {e : Declared}

/-- The type is that of what is declared, and finished if it is a record. -/
def Finished (types : TypeFactory) (m : Memo) (t : DataType) : Declared → Prop
  | .primitive p => t = p ∧ ∃ name, DataType.ofName? name = some p
  | .record d => types.find? d.name = some d ∧ m.finished.lookup (.named d.name) = some t

theorem Finished.mono {active : List TypeKey} (hm : m.Grows m' active)
    (h : types.Finished m t e) : types.Finished m' t e := by
  cases e with
  | primitive p => exact h
  | record d => exact ⟨h.1, hm.finished _ _ h.2⟩

/-- A primitive has no fields, and nothing is behind it. -/
theorem fieldList_primitive {name : String} (h : DataType.ofName? name = some t) (b : Binding)
    (m : Memo) : b.fieldList t = [] ∧ m.resolve t = t := by
  unfold DataType.ofName? at h
  split at h <;> cases h <;> exact ⟨rfl, rfl⟩

/-- A finished record is the struct of the fields of its description. -/
theorem Recorded.struct (hr : types.Recorded m []) (hkeys : types.KeysApart) {d : Descriptor}
    (h : types.Finished m t (.record d)) : ∃ attributes, t = .struct attributes ∧
      List.Forall₂ (types.Describes m) d.fields attributes := by
  obtain ⟨hfind, hlookup⟩ := h
  obtain ⟨e, attributes, he, hkey, hstruct, hfields⟩ := hr.finished _ t hlookup
  have hname : d.name = e.name := hkeys d (List.mem_of_find?_eq_some hfind) e
    (List.mem_of_find?_eq_some he) hkey
  rw [← hname, hfind] at he
  cases he
  exact ⟨attributes, hstruct, hfields⟩

/-- The type of a field, as the scope shows it, is that of what the field names. -/
theorem Recorded.field (hr : types.Recorded m []) {field : String × String} {a : Attribute}
    (h : types.Describes m field a) :
    ∃ e, types.declared field.2 = some e ∧ types.Finished m (m.resolve a.type) e := by
  obtain ⟨-, htype⟩ := h
  unfold declared
  cases hp : DataType.ofName? field.2 with
  | some p =>
      rw [hp] at htype
      refine ⟨.primitive p, rfl, ?_, field.2, hp⟩
      rw [htype]
      exact (fieldList_primitive hp none m).2
  | none =>
      rw [hp] at htype
      obtain ⟨⟨d, hd⟩, hstands⟩ := htype
      have hname := find?_name hd
      refine ⟨.record d, by rw [hd]; rfl, by rw [hname]; exact hd, ?_⟩
      rw [hname]
      rcases hstands with hfinished | ⟨hplaceholder, u, hu⟩
      · obtain ⟨-, attributes, -, -, hstruct, -⟩ := hr.finished _ _ hfinished
        rw [hstruct] at hfinished ⊢
        exact hfinished
      · rw [hplaceholder, Memo.resolve, hu, Option.getD_some]
        rcases hr.resolved _ u hu with hfinished | ⟨-, hactive⟩
        · exact hfinished
        · simp at hactive

/-- The fields of a finished type are those of what is declared, in order. -/
theorem Recorded.fields (hr : types.Recorded r.toMemo []) (hkeys : types.KeysApart)
    (h : types.Finished r.toMemo t e) :
    List.Forall₂ (fun field a => a.name = field.1 ∧
      ∃ e', types.declared field.2 = some e' ∧ types.Finished r.toMemo a.type e')
      e.fields (Binding.fieldList (some r) t) := by
  cases e with
  | primitive p =>
      obtain ⟨rfl, name, hname⟩ := h
      rw [(fieldList_primitive hname (some r) r.toMemo).1]
      exact .nil
  | record d =>
      obtain ⟨attributes, rfl, hfields⟩ := hr.struct hkeys h
      refine List.forall₂_map_right_iff.mpr (hfields.imp ?_)
      intro field a hdescribes
      exact ⟨hdescribes.1, hr.field hdescribes⟩

theorem Recorded.shows (hr : types.Recorded r.toMemo []) (hkeys : types.KeysApart)
    (h : types.Finished r.toMemo t e) : Binding.Shows (some r) t e := by
  have hfields := hr.fields hkeys h
  cases e with
  | primitive p => exact h.1
  | record d =>
      obtain ⟨attributes, hstruct, -⟩ := hr.struct hkeys h
      refine ⟨⟨attributes, hstruct⟩, ?_⟩
      have hlength : (Binding.fieldList (some r) t).length = d.fields.length :=
        hfields.length_eq.symm
      refine List.ext_getElem (by simpa using hlength) ?_
      intro i hi hi'
      rw [List.length_map] at hi hi'
      rw [List.getElem_map, List.getElem_map]
      exact (hfields.get hi' hi).1

/-- A path leads to what it leads to in the descriptions, and nowhere if it leads nowhere
there. -/
def Agrees (types : TypeFactory) (b : Binding) (t : DataType) (e : Declared) (path : List Nat) :
    Prop :=
  match types.reach e path with
  | some e' => ∃ t', b.follow t path = some t' ∧ b.Shows t' e'
  | none => b.follow t path = none

theorem Recorded.agrees (hr : types.Recorded r.toMemo []) (hkeys : types.KeysApart) :
    ∀ (path : List Nat) (t : DataType) (e : Declared), types.Finished r.toMemo t e →
      types.Agrees (some r) t e path := by
  intro path
  induction path with
  | nil => intro t e h; exact ⟨t, rfl, hr.shows hkeys h⟩
  | cons i path ih =>
      intro t e h
      have hfields := hr.fields hkeys h
      unfold Agrees reach Binding.follow
      by_cases hi : i < e.fields.length
      · have hi' : i < (Binding.fieldList (some r) t).length := hfields.length_eq ▸ hi
        obtain ⟨-, e', he', hfinished⟩ := hfields.get hi hi'
        rw [List.get_eq_getElem] at he'
        rw [List.getElem?_eq_getElem hi, List.getElem?_eq_getElem hi', Option.bind_some,
          Option.bind_some, he', Option.bind_some]
        exact ih _ e' hfinished
      · rw [List.getElem?_eq_none (Nat.le_of_not_lt hi),
          List.getElem?_eq_none (hfields.length_eq ▸ Nat.le_of_not_lt hi)]
        rfl

/-! ### Scopes -/

theorem build_of_createStruct {name : String} {r' : Resolver} (hactive : r.active = [])
    (h : types.createStruct name r = (.ok t, r')) :
    types.build [] name r.toMemo = (.ok t, r'.toMemo) := by
  have hresult := congrArg Prod.fst h
  have hmemo := congrArg (fun made => made.2.toMemo) h
  rw [← hactive]
  exact Prod.ext hresult hmemo

/-- Creating a type in a scope keeps what has been recorded in order. -/
theorem recorded_createStruct {name : String} {r' : Resolver} (hr : types.Recorded r.toMemo [])
    (hactive : r.active = []) (h : types.createStruct name r = (.ok t, r')) :
    r'.active = [] ∧ types.Recorded r'.toMemo [] ∧ r.toMemo.Grows r'.toMemo [] ∧
      ∃ d, types.find? name = some d ∧ types.Finished r'.toMemo t (.record d) := by
  have hbuild := build_of_createStruct hactive h
  have hactive' : r'.active = [] :=
    (congrArg (fun made => made.2.active) h).symm.trans hactive
  obtain ⟨hr', hgrows, ⟨d, hd⟩, -, hfinished⟩ := types.recorded_build _ rfl hr hbuild
  have hname := find?_name hd
  refine ⟨hactive', hr', hgrows, d, hd, by rw [hname]; exact hd, ?_⟩
  rw [hname]
  exact hfinished (by simp)

theorem recorded_createType {name : String} {r' : Resolver} (hr : types.Recorded r.toMemo [])
    (hactive : r.active = []) (h : types.createType name r = (.ok t, r')) :
    r'.active = [] ∧ types.Recorded r'.toMemo [] ∧ r.toMemo.Grows r'.toMemo [] ∧
      ∃ e, types.declared name = some e ∧ types.Finished r'.toMemo t e := by
  unfold createType at h
  unfold declared
  cases hp : DataType.ofName? name with
  | some p =>
      rw [hp] at h
      cases h
      exact ⟨hactive, hr, .refl _ _, .primitive _, rfl, rfl, name, hp⟩
  | none =>
      rw [hp] at h
      obtain ⟨hactive', hr', hgrows, d, hd, hfinished⟩ := recorded_createStruct hr hactive h
      exact ⟨hactive', hr', hgrows, .record d, by simp [hd], hfinished⟩

end TypeFactory

theorem Binding.withResolver_bound {α : Type} (action : Resolver → α × Resolver) {r : Resolver}
    {a : α} {b : Binding} (h : Binding.withResolver action (some r) = (a, b)) :
    ∃ r', action r = (a, r') ∧ b = some r' := by
  cases h
  exact ⟨_, rfl, rfl⟩

/-- Between two creations no type is active, and what was created is finished. -/
theorem Scope.recorded {types : TypeFactory} {b : Binding} {made : List (Creation × DataType)}
    (h : Scope types b made) : ∃ r, b = some r ∧ r.active = [] ∧ types.Recorded r.toMemo [] ∧
      ∀ c t, (c, t) ∈ made → ∃ e, c.declared types = some e ∧ types.Finished r.toMemo t e := by
  induction h with
  | opened => exact ⟨.empty, rfl, rfl, types.recorded_empty, fun c t h => by simp at h⟩
  | @created b b' made c t _ hrun ih =>
      obtain ⟨r, rfl, hactive, hr, hmade⟩ := ih
      have hnew : ∃ r', b' = some r' ∧ r'.active = [] ∧ types.Recorded r'.toMemo [] ∧
          r.toMemo.Grows r'.toMemo [] ∧
          ∃ e, c.declared types = some e ∧ types.Finished r'.toMemo t e := by
        cases c with
        | type name =>
            obtain ⟨r', hcreate, rfl⟩ :=
              Binding.withResolver_bound (types.createType name) hrun
            obtain ⟨hactive', hr', hgrows, he⟩ :=
              TypeFactory.recorded_createType hr hactive hcreate
            exact ⟨r', rfl, hactive', hr', hgrows, he⟩
        | record name =>
            obtain ⟨r', hcreate, rfl⟩ :=
              Binding.withResolver_bound (types.createStruct name) hrun
            obtain ⟨hactive', hr', hgrows, d, hd, hfinished⟩ :=
              TypeFactory.recorded_createStruct hr hactive hcreate
            exact ⟨r', rfl, hactive', hr', hgrows, .record d, by simp [Creation.declared, hd],
              hfinished⟩
      obtain ⟨r', rfl, hactive', hr', hgrows, hcreated⟩ := hnew
      refine ⟨r', rfl, hactive', hr', ?_⟩
      intro c' t' hmem
      rcases List.mem_cons.mp hmem with hsame | hbefore
      · cases hsame
        exact hcreated
      · obtain ⟨e, he, hfinished⟩ := hmade c' t' hbefore
        exact ⟨e, he, hfinished.mono hgrows⟩

/-- **Types unfold to their descriptions.**

The descriptions may refer to each other in any way.  Types are created in a scope, in any order
and each with success.  Then every type that was created is that of what was asked for, and every
path of field positions from it leads to what the path leads to in the descriptions: a primitive
where a field names one, and where it names a record a struct, never a placeholder, with the
names of its fields in order. -/
theorem Scope.unfolds_to_descriptions {types : TypeFactory} {b : Binding}
    {made : List (Creation × DataType)} (hkeys : types.KeysApart) (h : Scope types b made) :
    ∀ c t, (c, t) ∈ made → ∃ e, c.declared types = some e ∧
      ∀ path, types.Agrees b t e path := by
  obtain ⟨r, rfl, -, hr, hmade⟩ := h.recorded
  intro c t hmem
  obtain ⟨e, he, hfinished⟩ := hmade c t hmem
  exact ⟨e, he, fun path => hr.agrees hkeys path t e hfinished⟩

/-- Departments and their heads, who belong to departments. -/
theorem Scope.unfolds_departments :
    ∃ (types : TypeFactory) (b : Binding) (t : DataType),
      types = .ofList [⟨"Dept", [("head", "Emp")]⟩, ⟨"Emp", [("id", "int"), ("dept", "Dept")]⟩] ∧
      types.KeysApart ∧ Scope types b [(.type "Dept", t)] ∧
      ∀ path, types.Agrees b t (.record ⟨"Dept", [("head", "Emp")]⟩) path := by
  let types : TypeFactory :=
    .ofList [⟨"Dept", [("head", "Emp")]⟩, ⟨"Emp", [("id", "int"), ("dept", "Dept")]⟩]
  have hapart : TypeKey.named "Emp" ≠ TypeKey.named "Dept" := by decide +kernel
  have hkeys : types.KeysApart := by
    have hall : types.descriptors
        = [⟨"Emp", [("id", "int"), ("dept", "Dept")]⟩, ⟨"Dept", [("head", "Emp")]⟩] := rfl
    unfold TypeFactory.KeysApart
    rw [hall]
    simp [hapart, Ne.symm hapart]
  have hok : ∃ t, ((Creation.type "Dept").run types (some .empty)).1 = .ok t := ⟨_, by cbv⟩
  obtain ⟨t, ht⟩ := hok
  have hscope : Scope types ((Creation.type "Dept").run types (some .empty)).2
      [(.type "Dept", t)] := .created .opened (Prod.ext ht rfl)
  obtain ⟨e, he, hagrees⟩ :=
    Scope.unfolds_to_descriptions hkeys hscope (.type "Dept") t List.mem_cons_self
  have hdept : e = .record ⟨"Dept", [("head", "Emp")]⟩ := by
    have hdeclared : (Creation.type "Dept").declared types
        = some (.record ⟨"Dept", [("head", "Emp")]⟩) := by with_unfolding_all rfl
    rw [he] at hdeclared
    exact Option.some.inj hdeclared
  exact ⟨types, _, t, rfl, hkeys, hscope, hdept ▸ hagrees⟩

end StreamQuery
