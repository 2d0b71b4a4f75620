/-
Bookkeeping for types that refer to themselves.

While a record type is being built, a reference back to it gets a placeholder.  When the type is
finished it is recorded under its key, and from then on the placeholder can be swapped for it.

A `Memo` holds what has been recorded: the placeholders that were handed out, each with the type
behind it once that is known, and the types that were finished, which are not built again.  A
`Resolver` adds the keys of the types that are being built.
-/
import StreamQuery.Schema

namespace StreamQuery

/-- What has been recorded about types. -/
structure Memo where
  /-- The placeholders handed out, with the type behind each, which is the placeholder itself as
  long as no other is known; the latest entry of a key counts. -/
  resolutions : List (TypeKey × DataType)
  /-- The finished types; the latest entry of a key counts. -/
  finished : List (TypeKey × DataType)
  /-- How many placeholders have got a type behind them. -/
  resolutionCount : Nat
  /-- How many times a finished type was asked for and found. -/
  reuseCount : Nat
deriving Repr

namespace Memo

/-- Nothing recorded. -/
def empty : Memo := ⟨[], [], 0, 0⟩

/-- Hands out the placeholder of a key.  A type already known behind it stays. -/
def placeholder (m : Memo) (key : TypeKey) : DataType × Memo :=
  match m.resolutions.lookup key with
  | some _ => (.unresolved key, m)
  | none => (.unresolved key, { m with resolutions := (key, .unresolved key) :: m.resolutions })

/-- The type behind a placeholder, if one is known; any other type stays as it is. -/
def resolve (m : Memo) (t : DataType) : DataType :=
  match t with
  | .unresolved key => (m.resolutions.lookup key).getD t
  | _ => t

/-- Records the type behind the placeholder of a key.  Nothing happens unless the placeholder was
handed out and no type is known behind it yet. -/
def setResolution (m : Memo) (key : TypeKey) (t : DataType) : Memo :=
  match m.resolutions.lookup key with
  | some (.unresolved _) =>
    { m with resolutions := (key, t) :: m.resolutions, resolutionCount := m.resolutionCount + 1 }
  | _ => m

/-- Records a finished type. -/
def finish (m : Memo) (key : TypeKey) (t : DataType) : Memo :=
  { m with finished := (key, t) :: m.finished }

/-- The finished type of a key.  Finding one counts as a reuse. -/
def finished? (m : Memo) (key : TypeKey) : Option DataType × Memo :=
  match m.finished.lookup key with
  | some t => (some t, { m with reuseCount := m.reuseCount + 1 })
  | none => (none, m)

/-- Attributes with the types behind their placeholders. -/
def resolveAll (m : Memo) (attributes : List Attribute) : List Attribute :=
  attributes.map fun a => { a with type := m.resolve a.type }

end Memo

/-- What has been recorded about types, and which are being built. -/
structure Resolver extends Memo where
  active : List TypeKey
deriving Repr

namespace Resolver

/-- Nothing recorded and nothing being built. -/
def empty : Resolver := { Memo.empty with active := [] }

/-- Marks a type as being built.  The answer is false if it already was. -/
def enter (r : Resolver) (key : TypeKey) : Bool × Resolver :=
  if key ∈ r.active then (false, r) else (true, { r with active := key :: r.active })

/-- Marks a type as no longer being built. -/
def leave (r : Resolver) (key : TypeKey) : Resolver :=
  { r with active := r.active.filter fun k => k != key }

end Resolver

end StreamQuery
