/-
Building record types from their descriptions.

A description names the fields of a record and, for each, a primitive type or another description,
which may lead back to the first.  A type whose fields are being built is active; a reference to an
active type gets a placeholder, and a reference to a finished one gets the type that was finished.
The active types are passed down, so they are the same after a type was built as before, whether
it could be built or not.

Building ends because every description on the way down is active and was not before: the
descriptions that are not active become fewer.
-/
import StreamQuery.Types.Resolver

namespace StreamQuery

/-- The description of a record type: its fields, each with the name of a type. -/
structure Descriptor where
  name : String
  fields : List (String × String)
deriving DecidableEq, Repr

/-- The name of a type that is neither a primitive nor described. -/
structure UnknownType where
  name : String
deriving DecidableEq, Repr

/-- The text of the error. -/
def UnknownType.message (u : UnknownType) : String :=
  "Unknown type name " ++ u.name

/-- The described types, at most one of each name. -/
structure TypeFactory where
  descriptors : List Descriptor
deriving Repr

namespace TypeFactory

/-- No type described. -/
def empty : TypeFactory := ⟨[]⟩

/-- Adds a description in place of the one with its name. -/
def register (types : TypeFactory) (d : Descriptor) : TypeFactory :=
  ⟨d :: types.descriptors.filter fun e => e.name != d.name⟩

/-- The types described by a list; of two descriptions of a name the later one counts. -/
def ofList (ds : List Descriptor) : TypeFactory :=
  ds.foldl register empty

/-- The description of a name. -/
def find? (types : TypeFactory) (name : String) : Option Descriptor :=
  types.descriptors.find? fun d => d.name == name

/-- How many descriptions are not active. -/
def inactive (types : TypeFactory) (active : List TypeKey) : Nat :=
  types.descriptors.countP fun d => !(active.contains (TypeKey.named d.name))

theorem find?_name {types : TypeFactory} {name : String} {d : Descriptor}
    (h : types.find? name = some d) : d.name = name := by
  simpa using List.find?_some h

theorem countP_lt_of_imp {α : Type} {p q : α → Bool} {xs : List α} {x : α}
    (sub : ∀ y, p y = true → q y = true) (mem : x ∈ xs) (now : q x = true) (gone : p x = false) :
    xs.countP p < xs.countP q := by
  induction xs with
  | nil => cases mem
  | cons y ys ih =>
    have rest : ys.countP p ≤ ys.countP q := List.countP_mono_left fun z _ => sub z
    rcases List.mem_cons.1 mem with same | later
    · subst same
      simp only [List.countP_cons, now, gone, if_true, Bool.false_eq_true, if_false]
      omega
    · have fewer := ih later
      have here : (if p y = true then 1 else 0) ≤ (if q y = true then 1 else 0) := by
        by_cases hp : p y = true
        · simp [hp, sub y hp]
        · simp [hp]
      simp only [List.countP_cons]
      omega

theorem inactive_lt {types : TypeFactory} {active : List TypeKey} {name : String} {d : Descriptor}
    (found : types.find? name = some d) (fresh : TypeKey.named name ∉ active) :
    types.inactive (TypeKey.named name :: active) < types.inactive active := by
  have same := find?_name found
  refine countP_lt_of_imp ?_ (List.mem_of_find?_eq_some found) ?_ ?_
  · intro e he
    simp only [List.contains_eq_mem, List.mem_cons, Bool.not_eq_true', decide_eq_false_iff_not,
      not_or] at he ⊢
    exact he.2
  · simpa [same] using fresh
  · simp [same]

mutual
/-- The record type of a description, with the given types active. -/
def build (types : TypeFactory) (active : List TypeKey) (name : String) (m : Memo) :
    Except UnknownType DataType × Memo :=
  match found : types.find? name with
  | none => (.error ⟨name⟩, m)
  | some d =>
    match m.finished? (TypeKey.named name) with
    | (some t, m) => (.ok t, m)
    | (none, m) =>
      if fresh : TypeKey.named name ∈ active then
        let (t, m) := m.placeholder (TypeKey.named name)
        (.ok t, m)
      else
        have := inactive_lt found fresh
        match buildFields types (TypeKey.named name :: active) d.fields m with
        | (.error e, m) => (.error e, m)
        | (.ok attributes, m) =>
          let t := DataType.struct attributes
          (.ok t, (m.finish (TypeKey.named name) t).setResolution (TypeKey.named name) t)
termination_by (types.inactive active, 0)
/-- The attributes of described fields, in order, up to the first whose type is unknown. -/
def buildFields (types : TypeFactory) (active : List TypeKey) (fields : List (String × String))
    (m : Memo) : Except UnknownType (List Attribute) × Memo :=
  match fields with
  | [] => (.ok [], m)
  | (name, typeName) :: rest =>
    match DataType.ofName? typeName with
    | some t =>
      match buildFields types active rest m with
      | (.error e, m) => (.error e, m)
      | (.ok attributes, m) => (.ok (⟨name, t⟩ :: attributes), m)
    | none =>
      match build types active typeName m with
      | (.error e, m) => (.error e, m)
      | (.ok t, m) =>
        match buildFields types active rest m with
        | (.error e, m) => (.error e, m)
        | (.ok attributes, m) => (.ok (⟨name, t⟩ :: attributes), m)
termination_by (types.inactive active, fields.length + 1)
end

/-- Builds the record type of a description with a resolver. -/
def createStruct (types : TypeFactory) (name : String) (r : Resolver) :
    Except UnknownType DataType × Resolver :=
  let (result, m) := build types r.active name r.toMemo
  (result, { r with toMemo := m })

/-- The primitive of a name or the record type of a description. -/
def createType (types : TypeFactory) (name : String) (r : Resolver) :
    Except UnknownType DataType × Resolver :=
  match DataType.ofName? name with
  | some t => (.ok t, r)
  | none => types.createStruct name r

end TypeFactory

end StreamQuery
