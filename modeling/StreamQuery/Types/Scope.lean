/-
The scope in which types share what has been recorded.

A thread has a resolver bound to it as long as a scope is open.  A scope opened inside another one
works with the resolver of the outer scope; when the outermost scope is left, by whatever way, the
resolver goes with it.
-/
import StreamQuery.Types.Factory

namespace StreamQuery

/-- The resolver bound to a thread, if any. -/
abbrev Binding := Option Resolver

namespace Binding

/-- Whether a resolver is bound. -/
def isBound (b : Binding) : Bool :=
  b.isSome

/-- Runs an action inside a scope. -/
def inScope {α : Type} (action : Binding → α × Binding) : Binding → α × Binding
  | some r => action (some r)
  | none => ((action (some .empty)).1, none)

/-- Runs an action on the resolver of a scope. -/
def withResolver {α : Type} (action : Resolver → α × Resolver) : Binding → α × Binding :=
  inScope fun
    | some r =>
      let (a, r) := action r
      (a, some r)
    | none => ((action .empty).1, none)

/-- Attributes with the types behind their placeholders, as far as the bound resolver knows them. -/
def resolveAll (b : Binding) (attributes : List Attribute) : List Attribute :=
  match b with
  | some r => r.toMemo.resolveAll attributes
  | none => attributes

/-- The fields of a record type with the types behind their placeholders; other types have none. -/
def fieldList (b : Binding) : DataType → List Attribute
  | .struct attributes => b.resolveAll attributes
  | _ => []

end Binding

end StreamQuery
