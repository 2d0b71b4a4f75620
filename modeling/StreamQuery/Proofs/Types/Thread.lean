/-
What a thread sees of its resolver.

A thread makes calls that are lent a resolver, one inside another.  The first of them makes a
resolver and puts it into the slot of the thread, where the others find it, and it clears the slot
when it ends, in whatever way that happens.  A call may return, with success or with an error, or
panic; a panic ends the calls around it as well, up to where it is caught.

`Program` is what a thread can do, with what it has been told so far deciding what it does next, and
running one writes down every moment: what happened, how many calls are open after it, and what is
bound then.  Two machines run programs.  A `Thread` has the slot, and a store that the resolvers are
kept in; a call works on the resolver it was lent, by its number in the store.  A `Binding` has
nothing but the resolver that is bound.

The rules in `Moment.Step` say what may happen in which state and what it changes.  The moments of a
binding are a path by these rules, and the two machines cannot be told apart: the slot is filled
exactly while a call is open, and then it holds the number that every open call was lent.
-/
import Mathlib.Data.Fin.Tuple.Basic
import Mathlib.Logic.Function.Basic
import StreamQuery.Types.Scope

namespace StreamQuery

/-- What a resolver can be asked. -/
inductive Operation where
  | placeholder (key : TypeKey)
  | resolve (t : DataType)
  | setResolution (key : TypeKey) (t : DataType)
  | enter (key : TypeKey)
  | leave (key : TypeKey)
  | finish (key : TypeKey) (t : DataType)
  | finished (key : TypeKey)
  | resolveAll (attributes : List Attribute)
  | resolutionCount
  | reuseCount

/-- What a resolver answers. -/
inductive Operation.Answer where
  | done
  | type (t : DataType)
  | found (t : Option DataType)
  | entered (fresh : Bool)
  | attributes (attributes : List Attribute)
  | count (n : Nat)

/-- A resolver is asked. -/
def Operation.run : Operation → Resolver → Answer × Resolver
  | .placeholder key, r =>
    let (t, m) := r.toMemo.placeholder key
    (.type t, { r with toMemo := m })
  | .resolve t, r => (.type (r.toMemo.resolve t), r)
  | .setResolution key t, r => (.done, { r with toMemo := r.toMemo.setResolution key t })
  | .enter key, r =>
    let (fresh, r) := r.enter key
    (.entered fresh, r)
  | .leave key, r => (.done, r.leave key)
  | .finish key t, r => (.done, { r with toMemo := r.toMemo.finish key t })
  | .finished key, r =>
    let (t, m) := r.toMemo.finished? key
    (.found t, { r with toMemo := m })
  | .resolveAll attributes, r => (.attributes (r.toMemo.resolveAll attributes), r)
  | .resolutionCount, r => (.count r.resolutionCount, r)
  | .reuseCount, r => (.count r.reuseCount, r)

/-- How a call ends. -/
inductive Exit where
  /-- It returns, with success or early with an error. -/
  | returned (success : Bool)
  | panicked
deriving DecidableEq

/-- What a thread does while a number of calls are open. -/
inductive Program : Nat → Type where
  /-- The innermost call ends. -/
  | exit {depth : Nat} (e : Exit) : Program depth
  /-- The resolver that an open call was lent is asked. -/
  | operate {depth : Nat} (i : Fin depth) (o : Operation)
      (next : Operation.Answer → Program depth) : Program depth
  /-- The thread is asked whether a resolver is bound. -/
  | isBound {depth : Nat} (next : Bool → Program depth) : Program depth
  /-- Attributes are resolved with what is bound, if anything is. -/
  | resolveAll {depth : Nat} (attributes : List Attribute)
      (next : List Attribute → Program depth) : Program depth
  /-- A call is made.  What comes next is only reached if it returns. -/
  | call {depth : Nat} (body : Program (depth + 1)) (next : Bool → Program depth) : Program depth
  /-- A panic of the first program is caught. -/
  | guarded {depth : Nat} (body : Program depth) (next : Exit → Program depth) : Program depth

/-- What happens in a thread. -/
inductive Incident where
  | entered
  | left (e : Exit)
  | operated (o : Operation) (reply : Operation.Answer)
  | asked (bound : Bool)
  | resolved (attributes answer : List Attribute)

/-- Something happened, and after it so many calls are open and this is bound. -/
structure Moment where
  event : Incident
  depth : Nat
  binding : Binding

/-- What came of a program. -/
structure Course where
  exit : Exit
  log : List Moment

/-- Something happened before. -/
def Course.after (log : List Moment) (c : Course) : Course :=
  ⟨c.exit, log ++ c.log⟩

/-- What runs programs.  A call is lent a resolver by its number. -/
structure Host (σ : Type) where
  binding : σ → Binding
  call : {α : Type} → (Nat → σ → α × σ) → σ → α × σ
  operate : Nat → Operation → σ → Operation.Answer × σ

/-- A call, from its beginning to its end, made while a number of others are open. -/
def Host.enclose {σ : Type} (host : Host σ) (depth : Nat) (body : Nat → σ → Course × σ) (s : σ) :
    Course × σ :=
  let (c, s) := host.call (fun number s =>
    let (c, s') := body number s
    (c.after [⟨.entered, depth + 1, host.binding s⟩], s')) s
  (⟨c.exit, c.log ++ [⟨.left c.exit, depth, host.binding s⟩]⟩, s)

/-- Runs a program; the open calls hold the numbers of the resolvers that they were lent. -/
def Program.run {σ : Type} (host : Host σ) :
    {depth : Nat} → Program depth → (Fin depth → Nat) → σ → Course × σ
  | _, .exit e, _, s => (⟨e, []⟩, s)
  | depth, .operate i o next, held, s =>
    let (reply, s) := host.operate (held i) o s
    let (c, s') := (next reply).run host held s
    (c.after [⟨.operated o reply, depth, host.binding s⟩], s')
  | depth, .isBound next, held, s =>
    let bound := (host.binding s).isBound
    let (c, s') := (next bound).run host held s
    (c.after [⟨.asked bound, depth, host.binding s⟩], s')
  | depth, .resolveAll attributes next, held, s =>
    let answer := (host.binding s).resolveAll attributes
    let (c, s') := (next answer).run host held s
    (c.after [⟨.resolved attributes answer, depth, host.binding s⟩], s')
  | depth, .call body next, held, s =>
    let (c, s) := host.enclose depth
      (fun number => body.run host (Fin.cons number held : Fin (depth + 1) → Nat)) s
    match c.exit with
    | .panicked => (c, s)
    | .returned success =>
      let (c', s') := (next success).run host held s
      (c'.after c.log, s')
  | _, .guarded body next, held, s =>
    let (c, s) := body.run host held s
    let (c', s') := (next c.exit).run host held s
    (c'.after c.log, s')

/-- The slot of a thread and the resolvers that were made so far. -/
structure Thread where
  slot : Option Nat
  made : Nat
  store : Nat → Resolver

namespace Thread

/-- A resolver is made and bound. -/
def bind (t : Thread) : Thread :=
  ⟨some t.made, t.made + 1, Function.update t.store t.made .empty⟩

/-- The slot is cleared. -/
def unbind (t : Thread) : Thread :=
  { t with slot := none }

/-- A resolver is asked. -/
def operate (number : Nat) (o : Operation) (t : Thread) : Operation.Answer × Thread :=
  let (reply, r) := o.run (t.store number)
  (reply, { t with store := Function.update t.store number r })

/-- A call gets the resolver in the slot.  If there is none it gets a new one, and the slot is
cleared when the call ends. -/
def call {α : Type} (action : Nat → Thread → α × Thread) (t : Thread) : α × Thread :=
  match t.slot with
  | some number => action number t
  | none =>
    let (a, t') := action t.made t.bind
    (a, t'.unbind)

/-- The resolver in the slot. -/
def binding (t : Thread) : Binding :=
  t.slot.map t.store

/-- Programs run on a thread. -/
def host : Host Thread :=
  ⟨binding, call, operate⟩

end Thread

/-- Programs run with nothing but what is bound. -/
def Binding.host : Host Binding :=
  ⟨id, fun action => inScope (action 0), fun _ o => withResolver o.run⟩

/-! ### The rules -/

/-- What may happen in which state: how many calls are open, and what is bound. -/
inductive Moment.Step : Nat → Binding → Incident → Nat → Binding → Prop where
  /-- The first call starts with an empty resolver. -/
  | first : Step 0 none .entered 1 (some .empty)
  /-- A call inside another one finds the resolver as it is. -/
  | nested {depth : Nat} {r : Resolver} :
      Step (depth + 1) (some r) .entered (depth + 2) (some r)
  /-- The resolver stays as it is when an inner call ends, also by a panic. -/
  | inner {depth : Nat} {r : Resolver} {e : Exit} :
      Step (depth + 2) (some r) (.left e) (depth + 1) (some r)
  /-- When the last call ends, in whatever way, nothing is bound. -/
  | last {r : Resolver} {e : Exit} : Step 1 (some r) (.left e) 0 none
  /-- Whichever open call asks, the resolver that is bound answers. -/
  | operated {depth : Nat} {r : Resolver} {o : Operation} :
      Step (depth + 1) (some r) (.operated o (o.run r).1) (depth + 1) (some (o.run r).2)
  /-- A resolver is bound exactly while a call is open. -/
  | asked {depth : Nat} {b : Binding} : Step depth b (.asked (decide (0 < depth))) depth b
  | resolved {depth : Nat} {b : Binding} {attributes : List Attribute} :
      Step depth b (.resolved attributes (b.resolveAll attributes)) depth b

/-- One thing after another happens by the rules. -/
inductive Moment.Path : Nat → Binding → List Moment → Nat → Binding → Prop where
  | nil {depth : Nat} {b : Binding} : Path depth b [] depth b
  | cons {depth depth' depth'' : Nat} {b b' b'' : Binding} {event : Incident} {log : List Moment}
      (hstep : Step depth b event depth' b') (hrest : Path depth' b' log depth'' b'') :
      Path depth b (⟨event, depth', b'⟩ :: log) depth'' b''

namespace Moment

variable {depth depth' depth'' : Nat} {b b' b'' : Binding} {log more : List Moment}
  {event : Incident}

theorem Path.append (h : Path depth b log depth' b') (h' : Path depth' b' more depth'' b'') :
    Path depth b (log ++ more) depth'' b'' := by
  induction h with
  | nil => exact h'
  | cons hstep _ ih => exact .cons hstep (ih h')

theorem Path.concat (h : Path depth b log depth' b') (hstep : Step depth' b' event depth'' b'') :
    Path depth b (log ++ [⟨event, depth'', b''⟩]) depth'' b'' :=
  h.append (.cons hstep .nil)

/-- A resolver is bound exactly while a call is open. -/
theorem Step.isBound (h : Step depth b event depth' b') (hb : b.isBound = decide (0 < depth)) :
    b'.isBound = decide (0 < depth') := by
  cases h with
  | asked => exact hb
  | resolved => exact hb
  | first => rfl
  | last => rfl
  | nested => simp [Binding.isBound]
  | inner => simp [Binding.isBound]
  | operated => simp [Binding.isBound]

theorem Path.isBound (h : Path depth b log depth' b') (hb : b.isBound = decide (0 < depth)) :
    ∀ m ∈ log, m.binding.isBound = decide (0 < m.depth) := by
  induction h with
  | nil => simp
  | cons hstep _ ih =>
      have hbound := hstep.isBound hb
      exact List.forall_mem_cons.mpr ⟨hbound, ih hbound⟩

/-- A call that no other one is open around starts with an empty resolver. -/
theorem Path.entered (h : Path depth b log depth' b') :
    ∀ m ∈ log, m.event = .entered → m.depth = 1 → m.binding = some .empty := by
  induction h with
  | nil => simp
  | cons hstep _ ih =>
      refine List.forall_mem_cons.mpr ⟨?_, ih⟩
      rintro rfl hdepth
      cases hstep with
      | first => rfl
      | nested => simp at hdepth

/-- When it ends, nothing is bound. -/
theorem Path.left (h : Path depth b log depth' b') :
    ∀ m ∈ log, ∀ e, m.event = .left e → m.depth = 0 → m.binding = none := by
  induction h with
  | nil => simp
  | cons hstep _ ih =>
      refine List.forall_mem_cons.mpr ⟨?_, ih⟩
      rintro e rfl hdepth
      cases hstep with
      | last => rfl
      | inner => simp at hdepth

end Moment

/-! ### Programs on a binding -/

open Moment

/-- If a call does what it does by the rules, then it begins and ends by the rules. -/
theorem Binding.path_enclose {depth : Nat} {b : Binding} (hb : b.isBound = decide (0 < depth))
    (body : Nat → Binding → Course × Binding)
    (hbody : ∀ r, Path (depth + 1) (some r) (body 0 (some r)).1.log (depth + 1)
      (body 0 (some r)).2 ∧ (body 0 (some r)).2.isBound = true) :
    Path depth b (host.enclose depth body b).1.log depth (host.enclose depth body b).2 ∧
      (host.enclose depth body b).2.isBound = decide (0 < depth) := by
  cases depth with
  | zero =>
      obtain rfl : b = none := by simpa [isBound] using hb
      obtain ⟨hpath, hbound⟩ := hbody .empty
      obtain ⟨r, hr⟩ := Option.isSome_iff_exists.mp hbound
      rw [hr] at hpath
      exact ⟨.cons .first (hpath.concat .last), rfl⟩
  | succ depth =>
      obtain ⟨r, rfl⟩ : ∃ r, b = some r := by simpa [isBound, Option.isSome_iff_exists] using hb
      obtain ⟨hpath, hbound⟩ := hbody r
      obtain ⟨r', hr⟩ := Option.isSome_iff_exists.mp hbound
      refine ⟨.cons .nested (hpath.concat ?_), hbound⟩
      show Step _ (body 0 (some r)).2 _ _ (body 0 (some r)).2
      rw [hr]
      exact .inner

namespace Program

/-- **What happens on a binding happens by the rules**, and in the end as many calls are open as in
the beginning. -/
theorem path_run {depth : Nat} (p : Program depth) : ∀ (held : Fin depth → Nat) (b : Binding),
    b.isBound = decide (0 < depth) →
    Path depth b (p.run Binding.host held b).1.log depth (p.run Binding.host held b).2 ∧
      (p.run Binding.host held b).2.isBound = decide (0 < depth) := by
  induction p with
  | exit e => exact fun held b hb => ⟨.nil, hb⟩
  | @operate depth i o next ih =>
      intro held b hb
      obtain ⟨d, rfl⟩ : ∃ d, depth = d + 1 := Nat.exists_eq_succ_of_ne_zero i.pos.ne'
      obtain ⟨r, rfl⟩ : ∃ r, b = some r := by
        simpa [Binding.isBound, Option.isSome_iff_exists] using hb
      obtain ⟨hpath, hbound⟩ := ih (o.run r).1 held (some (o.run r).2) hb
      exact ⟨.cons .operated hpath, hbound⟩
  | isBound next ih =>
      intro held b hb
      obtain ⟨hpath, hbound⟩ := ih b.isBound held b hb
      refine ⟨.cons ?_ hpath, hbound⟩
      show Step _ b (.asked b.isBound) _ b
      rw [hb]
      exact .asked
  | resolveAll attributes next ih =>
      intro held b hb
      obtain ⟨hpath, hbound⟩ := ih (b.resolveAll attributes) held b hb
      exact ⟨.cons .resolved hpath, hbound⟩
  | @call depth body next ihBody ihNext =>
      intro held b hb
      obtain ⟨hpath, hbound⟩ := Binding.path_enclose hb
        (fun number => body.run Binding.host (Fin.cons number held : Fin (depth + 1) → Nat))
        fun r => ihBody (Fin.cons 0 held : Fin (depth + 1) → Nat) (some r)
          (by simp [Binding.isBound])
      rw [run]
      generalize Binding.host.enclose depth _ b = called at hpath hbound ⊢
      obtain ⟨⟨e, log⟩, b'⟩ := called
      cases e with
      | panicked => exact ⟨hpath, hbound⟩
      | returned success =>
          obtain ⟨hpath', hbound'⟩ := ihNext success held b' hbound
          exact ⟨hpath.append hpath', hbound'⟩
  | guarded body next ihBody ihNext =>
      intro held b hb
      obtain ⟨hpath, hbound⟩ := ihBody held b hb
      obtain ⟨hpath', hbound'⟩ := ihNext (body.run Binding.host held b).1.exit held _ hbound
      exact ⟨hpath.append hpath', hbound'⟩

end Program

/-! ### Programs on a thread -/

/-- A thread and a binding show the same, and the slot is as it was. -/
structure Thread.Matches (slot : Option Nat) (x : Course × Thread) (y : Course × Binding) :
    Prop where
  course : x.1 = y.1
  binding : x.2.binding = y.2
  slot : x.2.slot = slot

namespace Thread

variable {t : Thread} {number : Nat} {slot : Option Nat} {x : Course × Thread}
  {y : Course × Binding}

theorem binding_of_slot (h : t.slot = some number) : t.binding = some (t.store number) := by
  unfold binding
  rw [h]
  rfl

theorem binding_of_free (h : t.slot = none) : t.binding = none := by
  unfold binding
  rw [h]
  rfl

theorem Matches.after (h : Matches slot x y) (log : List Moment) :
    Matches slot (x.1.after log, x.2) (y.1.after log, y.2) :=
  ⟨congrArg (Course.after log) h.course, h.binding, h.slot⟩

/-- Whichever open call asks, it is the resolver in the slot that is asked. -/
theorem operate_slot (h : t.slot = some number) (o : Operation) :
    Binding.withResolver o.run t.binding
      = ((t.operate number o).1, (t.operate number o).2.binding) := by
  have hslot : (t.operate number o).2.slot = some number := h
  rw [binding_of_slot h, binding_of_slot hslot]
  show _ = (_, some (Function.update t.store number _ number))
  rw [Function.update_self]
  rfl

/-- A call shows the same if what it does shows the same.  It leaves the slot as it was: either it
found a resolver there, or it clears the slot. -/
theorem Matches.enclose (t : Thread) (depth : Nat) (body : Nat → Thread → Course × Thread)
    (body' : Nat → Binding → Course × Binding)
    (hbody : ∀ number u, u.slot = some number → (∀ k, t.slot = some k → k = number) →
      Matches (some number) (body number u) (body' 0 u.binding)) :
    Matches t.slot (host.enclose depth body t) (Binding.host.enclose depth body' t.binding) := by
  cases hslot : t.slot with
  | some number =>
      obtain ⟨hcourse, hbinding, hleft⟩ := hbody number t hslot fun k hk =>
        Option.some.inj (hk.symm.trans hslot)
      simp only [Host.enclose, host, call, hslot]
      rw [binding_of_slot hslot] at hcourse hbinding ⊢
      refine ⟨?_, hbinding, hleft⟩
      simp only [hcourse, hbinding]
      rfl
  | none =>
      obtain ⟨hcourse, hbinding, hleft⟩ := hbody t.made t.bind rfl fun k hk => by
        rw [hslot] at hk
        cases hk
      have hbound : t.bind.binding = some .empty := congrArg some (Function.update_self ..)
      simp only [Host.enclose, host, call, hslot]
      rw [hbound] at hcourse hbinding ⊢
      rw [binding_of_free hslot]
      refine ⟨?_, rfl, rfl⟩
      simp only [hcourse]
      rfl

end Thread

namespace Program

/-- **A thread and a binding cannot be told apart** by a program whose open calls were all lent the
resolver in the slot. -/
theorem matches_run {depth : Nat} (p : Program depth) :
    ∀ (held held' : Fin depth → Nat) (t : Thread), (∀ i, t.slot = some (held i)) →
      Thread.Matches t.slot (p.run Thread.host held t) (p.run Binding.host held' t.binding) := by
  induction p with
  | exit e => exact fun held held' t hslot => ⟨rfl, rfl, rfl⟩
  | operate i o next ih =>
      intro held held' t hslot
      have hasked : Binding.host.operate (held' i) o t.binding = _ :=
        Thread.operate_slot (hslot i) o
      rw [run, run, hasked]
      exact (ih _ held held' (t.operate (held i) o).2 hslot).after _
  | isBound next ih =>
      intro held held' t hslot
      exact (ih _ held held' t hslot).after _
  | resolveAll attributes next ih =>
      intro held held' t hslot
      exact (ih _ held held' t hslot).after _
  | @call depth body next ihBody ihNext =>
      intro held held' t hslot
      obtain ⟨hcourse, hbinding, hleft⟩ := Thread.Matches.enclose t depth
        (fun number => body.run Thread.host (Fin.cons number held : Fin (depth + 1) → Nat))
        (fun number => body.run Binding.host (Fin.cons number held' : Fin (depth + 1) → Nat))
        fun number u hu hsame => by
          have hlent : ∀ i, u.slot = some ((Fin.cons number held : Fin (depth + 1) → Nat) i) := by
            intro i
            cases i using Fin.cases with
            | zero => exact hu
            | succ i => exact hu.trans (congrArg some (hsame _ (hslot i)).symm)
          rw [← hu]
          exact ihBody _ _ u hlent
      rw [run, run]
      generalize Thread.host.enclose depth _ t = x at hcourse hbinding hleft ⊢
      generalize Binding.host.enclose depth _ t.binding = y at hcourse hbinding ⊢
      obtain ⟨⟨e, log⟩, t'⟩ := x
      obtain rfl : y = (⟨e, log⟩, t'.binding) := Prod.ext hcourse.symm hbinding.symm
      cases e with
      | panicked => exact ⟨rfl, rfl, hleft⟩
      | returned success =>
          have hnext := ihNext success held held' t' fun i => hleft.trans (hslot i)
          rw [hleft] at hnext
          exact hnext.after log
  | guarded body next ihBody ihNext =>
      intro held held' t hslot
      obtain ⟨hcourse, hbinding, hleft⟩ := ihBody held held' t hslot
      rw [run, run]
      generalize body.run Thread.host held t = x at hcourse hbinding hleft ⊢
      generalize body.run Binding.host held' t.binding = y at hcourse hbinding ⊢
      obtain ⟨c, t'⟩ := x
      obtain rfl : y = (c, t'.binding) := Prod.ext hcourse.symm hbinding.symm
      have hnext := ihNext c.exit held held' t' fun i => hleft.trans (hslot i)
      rw [hleft] at hnext
      exact hnext.after c.log

/-- **Every way out of a call leaves the thread as it should be.**  A program runs on a thread to
which nothing is bound, with calls inside calls, errors, panics and panics that are caught in any
places.  Then all that happens happens by the rules: the open calls all work on one resolver, which
stays as it is when one of them begins or ends and changes only when it is asked for something.
It is bound exactly while a call is open, a call that no other one is open around starts with an
empty one, and when it ends, and so in the end, nothing is bound.  The moments are those of a
program that runs with nothing but what is bound. -/
theorem calls_are_balanced (p : Program 0) (made : Nat) (store : Nat → Resolver) :
    ∃ c t, p.run Thread.host Fin.elim0 ⟨none, made, store⟩ = (c, t) ∧ t.slot = none ∧
      p.run Binding.host Fin.elim0 none = (c, none) ∧ Path 0 none c.log 0 none ∧
      (∀ m ∈ c.log, m.binding.isBound = decide (0 < m.depth)) ∧
      (∀ m ∈ c.log, m.event = .entered → m.depth = 1 → m.binding = some .empty) ∧
      ∀ m ∈ c.log, ∀ e, m.event = .left e → m.depth = 0 → m.binding = none := by
  obtain ⟨hcourse, hbinding, hslot⟩ :=
    p.matches_run Fin.elim0 Fin.elim0 ⟨none, made, store⟩ fun i => i.elim0
  have hfree := Thread.binding_of_free hslot
  have hstart : (⟨none, made, store⟩ : Thread).binding = none := Thread.binding_of_free rfl
  rw [hstart] at hcourse hbinding
  obtain ⟨hpath, -⟩ := p.path_run Fin.elim0 none rfl
  have hrun : p.run Binding.host Fin.elim0 none
      = ((p.run Thread.host Fin.elim0 ⟨none, made, store⟩).1, none) :=
    Prod.ext hcourse.symm (hbinding.symm.trans hfree)
  rw [hrun] at hpath
  exact ⟨_, _, rfl, hslot, hrun, hpath, hpath.isBound rfl, hpath.entered, hpath.left⟩

/-- An inner call panics, and the outer one catches that and goes on. -/
example : ((call (guarded (call (operate 0 .reuseCount fun _ => exit .panicked)
      fun _ => exit (.returned true))
    fun _ => operate 0 .reuseCount fun _ => exit (.returned false))
    fun _ => isBound fun _ => exit (.returned true)).run Binding.host Fin.elim0 none).1.log.map
      (fun m => (m.depth, m.binding.isBound))
    = [(1, true), (2, true), (2, true), (1, true), (1, true), (0, false), (0, false)] := by
  rfl

end Program

end StreamQuery
