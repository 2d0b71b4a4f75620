/-
A resolver answers from its history.

A resolver is asked things in any order and about any keys, and what it has recorded is the result
of all of them.  Here each answer is read off what was asked before: the type behind a placeholder is
the first that was set for its key after the placeholder had been handed out, the finished type of a
key is the last one, and a key may be entered when it was left after each time that it was entered.

A resolver keeps three tables and two counts.  `Operation.reads` says on which places of these an
answer depends, and `Operation.writes` which ones an operation may change; what is asked does not
notice operations that write nothing that it reads.
-/
import Mathlib.Data.Set.Card
import StreamQuery.Proofs.Types.Account
import StreamQuery.Proofs.Types.Thread

namespace StreamQuery

deriving instance DecidableEq for Operation

namespace Resolver

/-- The resolver after operations. -/
def after (r : Resolver) (ops : List Operation) : Resolver :=
  ops.foldl (fun r o => (o.run r).2) r

/-- The answers to operations. -/
def answers (r : Resolver) : List Operation → List Operation.Answer
  | [] => []
  | o :: ops => (o.run r).1 :: answers (o.run r).2 ops

variable {r r' r'' : Resolver} {o : Operation} {ops more : List Operation} {t : DataType}

theorem after_cons : r.after (o :: ops) = (o.run r).2.after ops := rfl

theorem after_append : r.after (ops ++ more) = (r.after ops).after more := by
  unfold after
  rw [List.foldl_append]

theorem after_concat : r.after (ops ++ [o]) = (o.run (r.after ops)).2 := by
  rw [after_append]
  rfl

theorem enter_toMemo (r : Resolver) (key : TypeKey) : (r.enter key).2.toMemo = r.toMemo := by
  unfold enter
  split <;> rfl

/-! ### What is recorded -/

/-- The keys with a type behind their placeholder. -/
def known (r : Resolver) : Set TypeKey :=
  {key | ∃ t, r.resolutions.lookup key = some t ∧ t.isUnresolved = false}

theorem known_eq (r : Resolver) :
    r.known = {key | (r.resolve (.unresolved key)).isUnresolved = false} := by
  ext key
  simp only [known, Set.mem_ofPred_eq, Memo.resolve]
  cases r.resolutions.lookup key <;> simp [DataType.isUnresolved]

theorem known_empty : empty.known = ∅ := by
  ext key
  simp [known, empty, Memo.empty]

/-- A part of what a resolver has recorded. -/
inductive Place where
  | resolution (key : TypeKey)
  | active (key : TypeKey)
  | finished (key : TypeKey)
  | resolutionCount
  | reuseCount
deriving DecidableEq

/-- The place that a type leads to. -/
def Place.behind : DataType → List Place
  | .unresolved key => [.resolution key]
  | _ => []

/-- Two resolvers have the same recorded at a place. -/
def SameAt (r r' : Resolver) : Place → Prop
  | .resolution key => r.resolutions.lookup key = r'.resolutions.lookup key
  | .active key => key ∈ r.active ↔ key ∈ r'.active
  | .finished key => r.finished.lookup key = r'.finished.lookup key
  | .resolutionCount => r.resolutionCount = r'.resolutionCount
  | .reuseCount => r.reuseCount = r'.reuseCount

theorem SameAt.refl (r : Resolver) (place : Place) : r.SameAt r place := by
  cases place <;> rfl

theorem SameAt.trans {place : Place} (h : r.SameAt r' place) (h' : r'.SameAt r'' place) :
    r.SameAt r'' place := by
  cases place with
  | active => exact Iff.trans h h'
  | _ => exact Eq.trans h h'

theorem resolve_of_sameAt (h : ∀ place ∈ Place.behind t, r.SameAt r' place) :
    r.resolve t = r'.resolve t := by
  cases t with
  | unresolved key =>
      have hkey : r.resolutions.lookup key = r'.resolutions.lookup key :=
        h (.resolution key) (by simp [Place.behind])
      rw [Memo.resolve, Memo.resolve, hkey]
  | _ => rfl

end Resolver

/-- Asking for a finished type only counts what is found. -/
theorem Memo.finished?_eq (m : Memo) (key : TypeKey) : m.finished? key
    = (m.finished.lookup key,
      { m with reuseCount := m.reuseCount + if (m.finished.lookup key).isSome then 1 else 0 }) := by
  unfold finished?
  cases m.finished.lookup key <;> rfl

namespace Operation

/-! ### What the history says -/

/-- The answer of a resolver that was empty and has been asked other things before. -/
def answer (o : Operation) (ops : List Operation) : Answer :=
  (o.run (Resolver.empty.after ops)).1

/-- Whether a finished type was asked for and found. -/
def Answer.isHit : Answer → Bool
  | .found (some _) => true
  | _ => false

/-- The type that is set for a key. -/
def setting? (key : TypeKey) : Operation → Option DataType
  | .setResolution k t => if k = key then some t else none
  | _ => none

/-- The type that is finished for a key. -/
def finishing? (key : TypeKey) : Operation → Option DataType
  | .finish k t => if k = key then some t else none
  | _ => none

/-- The first type that is set for a key after its placeholder was handed out. -/
def settled? (key : TypeKey) (ops : List Operation) : Option DataType :=
  (ops.dropWhile (· ≠ .placeholder key)).findSome? (setting? key)

/-- The type that was finished last for a key. -/
def lastFinished? (key : TypeKey) (ops : List Operation) : Option DataType :=
  ops.reverse.findSome? (finishing? key)

/-- No type that is set is itself a placeholder. -/
def SetsTypes (ops : List Operation) : Prop :=
  ∀ key t, .setResolution key t ∈ ops → t.isUnresolved = false

/-- The places on which the answer to an operation depends. -/
def reads : Operation → List Resolver.Place
  | .resolve t => Resolver.Place.behind t
  | .resolveAll attributes => attributes.flatMap fun a => Resolver.Place.behind a.type
  | .enter key => [.active key]
  | .finished key => [.finished key]
  | .resolutionCount => [.resolutionCount]
  | .reuseCount => [.reuseCount]
  | .placeholder _ | .setResolution _ _ | .leave _ | .finish _ _ => []

/-- The places that an operation may change. -/
def writes : Operation → List Resolver.Place
  | .placeholder key => [.resolution key]
  | .setResolution key _ => [.resolution key, .resolutionCount]
  | .enter key | .leave key => [.active key]
  | .finish key _ => [.finished key]
  | .finished _ => [.reuseCount]
  | .resolve _ | .resolveAll _ | .resolutionCount | .reuseCount => []

variable {r r' : Resolver} {o : Operation} {ops more : List Operation} {key : TypeKey}
  {t : DataType}

/-! ### The types behind placeholders -/

/-- How an operation changes what is recorded behind the placeholder of a key. -/
theorem lookup_run (o : Operation) (r : Resolver) (key : TypeKey) :
    (o.run r).2.resolutions.lookup key = match o with
      | .placeholder k =>
        if key = k then some ((r.resolutions.lookup key).getD (.unresolved key))
        else r.resolutions.lookup key
      | .setResolution k t =>
        if key = k then (r.resolutions.lookup key).map fun u => if u.isUnresolved then t else u
        else r.resolutions.lookup key
      | _ => r.resolutions.lookup key := by
  cases o with
  | placeholder k =>
      show (r.toMemo.placeholder k).2.resolutions.lookup key = if key = k then _ else _
      rw [Memo.lookup_placeholder]
      split
      · rename_i hk
        rw [hk]
      · rfl
  | setResolution k t =>
      show (r.toMemo.setResolution k t).resolutions.lookup key = if key = k then _ else _
      rw [Memo.lookup_setResolution_eq]
      split
      · rename_i hk
        rw [hk]
      · rfl
  | enter k =>
      show (r.enter k).2.toMemo.resolutions.lookup key = _
      rw [r.enter_toMemo]
  | finished k =>
      show (r.toMemo.finished? k).2.resolutions.lookup key = _
      rw [Memo.finished?_eq]
  | _ => rfl

/-- **A type behind a placeholder stays.** -/
theorem lookup_after_of_type (h : r.resolutions.lookup key = some t)
    (ht : t.isUnresolved = false) : (r.after ops).resolutions.lookup key = some t := by
  induction ops generalizing r with
  | nil => exact h
  | cons o ops ih =>
      refine ih ?_
      rw [lookup_run, h]
      cases o <;> simp [ht]

/-- A placeholder that is pending gets the first type that is set for its key. -/
theorem lookup_after_of_pending (hops : SetsTypes ops)
    (h : r.resolutions.lookup key = some (.unresolved key)) :
    (r.after ops).resolutions.lookup key
      = some ((ops.findSome? (setting? key)).getD (.unresolved key)) := by
  induction ops generalizing r with
  | nil => exact h
  | cons o ops ih =>
      have hrest : SetsTypes ops := fun k u hu => hops k u (List.mem_cons_of_mem _ hu)
      rw [Resolver.after_cons]
      cases hset : o.setting? key with
      | none =>
          rw [List.findSome?_cons, hset]
          refine ih hrest ?_
          rw [lookup_run, h]
          cases o with
          | setResolution k u =>
              have hk : ¬ key = k := by
                rintro rfl
                simp [setting?] at hset
              simp [hk]
          | _ => simp
      | some t =>
          -- from here on the type stays, so the operations behind this one do not matter
          rw [List.findSome?_cons, hset]
          obtain ⟨k, rfl, rfl⟩ : ∃ k, o = .setResolution k t ∧ k = key := by
            cases o with
            | setResolution k u =>
                have hset' : k = key ∧ u = t := by simpa [setting?] using hset
                exact ⟨k, by rw [hset'.2], hset'.1⟩
            | _ => cases hset
          refine lookup_after_of_type ?_ (hops _ _ List.mem_cons_self)
          rw [lookup_run, h]
          simp [DataType.isUnresolved]

/-- A key whose placeholder was not handed out waits for that. -/
theorem lookup_after_of_unknown (hops : SetsTypes ops) (h : r.resolutions.lookup key = none) :
    (r.after ops).resolutions.lookup key
      = if .placeholder key ∈ ops then some ((settled? key ops).getD (.unresolved key))
        else none := by
  induction ops generalizing r with
  | nil => exact h
  | cons o ops ih =>
      have hrest : SetsTypes ops := fun k u hu => hops k u (List.mem_cons_of_mem _ hu)
      rw [Resolver.after_cons]
      by_cases ho : o = .placeholder key
      · subst ho
        have hnone : (placeholder key).setting? key = none := rfl
        rw [if_pos List.mem_cons_self, settled?, List.dropWhile_cons_of_neg (by simp),
          List.findSome?_cons, hnone]
        refine lookup_after_of_pending hrest ?_
        rw [lookup_run, h]
        simp
      · have hstays : (o.run r).2.resolutions.lookup key = none := by
          rw [lookup_run, h]
          cases o with
          | placeholder k =>
              have hk : ¬ key = k := by
                rintro rfl
                exact ho rfl
              simp [hk]
          | _ => simp
        rw [ih hrest hstays, settled?, settled?, List.dropWhile_cons_of_pos (by simpa using ho)]
        simp [Ne.symm ho]

theorem settled?_eq_none (h : .placeholder key ∉ ops) : settled? key ops = none := by
  have hnothing : ops.dropWhile (· ≠ .placeholder key) = [] := by
    rw [List.dropWhile_eq_nil_iff]
    intro o ho
    simp only [ne_eq, decide_not, Bool.not_eq_true', decide_eq_false_iff_not]
    rintro rfl
    exact h ho
  rw [settled?, hnothing]
  rfl

theorem isUnresolved_of_settled? (hops : SetsTypes ops) (h : settled? key ops = some t) :
    t.isUnresolved = false := by
  obtain ⟨o, ho, hset⟩ := List.exists_of_findSome?_eq_some h
  cases o with
  | setResolution k u =>
      obtain ⟨-, rfl⟩ : k = key ∧ u = t := by simpa [setting?] using hset
      exact hops k u ((List.dropWhile_sublist _).subset ho)
  | _ => cases hset

theorem answer_resolve : (resolve t).answer ops = .type ((Resolver.empty.after ops).resolve t) :=
  rfl

/-- **Behind a placeholder is the first type set after it was handed out**, or itself. -/
theorem resolve_after (hops : SetsTypes ops) (key : TypeKey) :
    (Resolver.empty.after ops).resolve (.unresolved key)
      = (settled? key ops).getD (.unresolved key) := by
  rw [Memo.resolve, lookup_after_of_unknown hops rfl]
  by_cases h : .placeholder key ∈ ops
  · simp [h]
  · simp [h, settled?_eq_none h]

/-- What is behind a placeholder stays behind it. -/
theorem resolve_after_of_type (h : r.resolve (.unresolved key) = t)
    (ht : t.isUnresolved = false) : (r.after ops).resolve (.unresolved key) = t := by
  have hlookup : r.resolutions.lookup key = some t := by
    rw [Memo.resolve] at h
    cases hsome : r.resolutions.lookup key with
    | none =>
        rw [hsome] at h
        rw [← h] at ht
        cases ht
    | some u =>
        rw [hsome] at h
        exact congrArg some h
  rw [Memo.resolve, lookup_after_of_type hlookup ht]
  rfl

/-- A type that has been resolved is not resolved further. -/
theorem resolve_idempotent (hops : SetsTypes ops) (t : DataType) :
    (Resolver.empty.after ops).resolve ((Resolver.empty.after ops).resolve t)
      = (Resolver.empty.after ops).resolve t := by
  cases t with
  | unresolved key =>
      rw [resolve_after hops]
      cases hsettled : settled? key ops with
      | none => rw [Option.getD_none, resolve_after hops, hsettled, Option.getD_none]
      | some t =>
          have ht : t.isUnresolved = false := isUnresolved_of_settled? hops hsettled
          rw [Option.getD_some]
          exact Memo.resolve_of_type _ ht
  | _ => rfl

/-! ### How many placeholders have a type behind them -/

theorem known_run_of_ne (ho : ∀ k t, o ≠ .setResolution k t) :
    (o.run r).2.known = r.known := by
  ext key
  simp only [Resolver.known, Set.mem_ofPred_eq, lookup_run]
  cases o with
  | placeholder k =>
      by_cases hk : key = k
      · cases hlookup : r.resolutions.lookup key with
        | none => simp [hk, DataType.isUnresolved]
        | some u => simp [hk]
      · simp [hk]
  | setResolution k t => exact absurd rfl (ho k t)
  | _ => rfl

theorem resolutionCount_run_of_ne (ho : ∀ k t, o ≠ .setResolution k t) :
    (o.run r).2.resolutionCount = r.resolutionCount := by
  cases o with
  | placeholder k => exact (Memo.placeholder_counts _ k).2
  | setResolution k t => exact absurd rfl (ho k t)
  | enter k => exact congrArg Memo.resolutionCount (r.enter_toMemo k)
  | finished k =>
      show (r.toMemo.finished? k).2.resolutionCount = _
      rw [Memo.finished?_eq]
  | _ => rfl

/-- An operation that sets a type counts if the placeholder of its key is pending. -/
theorem encard_known_run (ho : SetsTypes [o]) (h : r.known.encard = r.resolutionCount) :
    (o.run r).2.known.encard = (o.run r).2.resolutionCount := by
  by_cases hset : ∃ k t, o = .setResolution k t
  · obtain ⟨k, t, rfl⟩ := hset
    have ht : t.isUnresolved = false := ho k t (by simp)
    by_cases hpending : ∃ j, r.resolutions.lookup k = some (.unresolved j)
    · obtain ⟨j, hj⟩ := hpending
      have hfresh : k ∉ r.known := by simp [Resolver.known, hj, DataType.isUnresolved]
      have hknown : ((setResolution k t).run r).2.known = insert k r.known := by
        ext key
        simp only [Resolver.known, Set.mem_ofPred_eq, lookup_run, Set.mem_insert_iff]
        by_cases hk : key = k
        · have hopen : (DataType.unresolved j).isUnresolved = true := rfl
          simp [hk, hj, hopen, ht]
        · simp [hk]
      have hcount : ((setResolution k t).run r).2.resolutionCount = r.resolutionCount + 1 := by
        simp [run, Memo.setResolution, hj]
      rw [hknown, hcount, Set.encard_insert_of_notMem hfresh, h]
      rfl
    · have hsame : ((setResolution k t).run r).2 = r := by
        rw [run, Memo.setResolution]
        split
        · rename_i j hj
          exact absurd ⟨j, hj⟩ hpending
        · rfl
      rw [hsame]
      exact h
  · have hne : ∀ k t, o ≠ .setResolution k t := fun k t hot => hset ⟨k, t, hot⟩
    rw [known_run_of_ne hne, resolutionCount_run_of_ne hne]
    exact h

theorem encard_known_after (hops : SetsTypes ops) (h : r.known.encard = r.resolutionCount) :
    (r.after ops).known.encard = (r.after ops).resolutionCount := by
  induction ops generalizing r with
  | nil => exact h
  | cons o ops ih =>
      have ho : SetsTypes [o] := fun k t ht => hops k t (by simp_all)
      exact ih (fun k t ht => hops k t (List.mem_cons_of_mem _ ht)) (encard_known_run ho h)

/-! ### Entering and leaving -/

theorem mem_active_run : key ∈ (o.run r).2.active ↔
    (key ∈ r.active ∨ o = .enter key) ∧ o ≠ .leave key := by
  cases o with
  | enter k =>
      show key ∈ (r.enter k).2.active ↔ _
      rw [Resolver.enter]
      by_cases hk : k ∈ r.active
      · simp only [if_pos hk]
        constructor
        · exact fun h => ⟨.inl h, by simp⟩
        · rintro ⟨h | h, -⟩
          · exact h
          · cases h
            exact hk
      · simp only [if_neg hk, List.mem_cons, enter.injEq, ne_eq, reduceCtorEq, not_false_eq_true,
          and_true]
        rw [or_comm, eq_comm (a := k)]
  | leave k =>
      simp only [run, Resolver.leave, List.mem_filter, bne_iff_ne, leave.injEq, reduceCtorEq,
        or_false, ne_eq]
      rw [eq_comm (a := k)]
  | _ => simp [run]

theorem entered_iff : ((enter key).run r).1 = .entered true ↔ key ∉ r.active := by
  show Answer.entered (r.enter key).1 = .entered true ↔ _
  rw [Resolver.enter]
  by_cases h : key ∈ r.active <;> simp [h]

/-- **A key is active if some operation entered it and none has left it since.** -/
theorem mem_active_after : key ∈ (Resolver.empty.after ops).active ↔ ∃ before later,
    ops = before ++ .enter key :: later ∧ key ∉ (Resolver.empty.after before).active ∧
      .leave key ∉ later := by
  induction ops using List.reverseRecOn with
  | nil => simp [Resolver.after, Resolver.empty]
  | append_singleton ops o ih =>
      rw [Resolver.after_concat, mem_active_run]
      constructor
      · rintro ⟨hentered, hleave⟩
        by_cases hactive : key ∈ (Resolver.empty.after ops).active
        · obtain ⟨before, later, rfl, hfresh, hopen⟩ := ih.mp hactive
          refine ⟨before, later ++ [o], by simp, hfresh, ?_⟩
          simp [hopen, Ne.symm hleave]
        · obtain rfl : o = .enter key := hentered.resolve_left hactive
          exact ⟨ops, [], rfl, hactive, List.not_mem_nil⟩
      · rintro ⟨before, later, hsplit, hfresh, hopen⟩
        -- the last operation is the one that entered, or it stands behind that and does not leave
        obtain rfl | ⟨rest, last, rfl⟩ := List.eq_nil_or_concat later
        · obtain ⟨rfl, hlast⟩ := List.append_inj' hsplit rfl
          obtain rfl : o = .enter key := by simpa using hlast
          exact ⟨.inr rfl, by simp⟩
        · have hsplit' : ops ++ [o] = (before ++ .enter key :: rest) ++ [last] := by
            simpa using hsplit
          obtain ⟨hinit, hlast⟩ := List.append_inj' hsplit' rfl
          obtain rfl : o = last := by simpa using hlast
          rw [List.concat_eq_append, List.mem_append, not_or] at hopen
          refine ⟨.inl (ih.mpr ⟨before, rest, hinit, hfresh, hopen.1⟩), ?_⟩
          rintro rfl
          exact hopen.2 (by simp)

/-- Whether a key may be entered, by what was asked before. -/
theorem entered_after_iff : (enter key).answer ops = .entered true ↔
    ∀ before later, ops = before ++ .enter key :: later →
      (enter key).answer before = .entered true → .leave key ∈ later := by
  rw [answer, entered_iff, mem_active_after]
  constructor
  · intro hclosed before later hsplit hfresh
    by_contra hopen
    exact hclosed ⟨before, later, hsplit, entered_iff.mp hfresh, hopen⟩
  · rintro hleft ⟨before, later, hsplit, hfresh, hopen⟩
    exact hopen (hleft before later hsplit (entered_iff.mpr hfresh))

/-! ### Finished types -/

theorem lookup_finished_run (o : Operation) (r : Resolver) (key : TypeKey) :
    (o.run r).2.finished.lookup key = (o.finishing? key).or (r.finished.lookup key) := by
  cases o with
  | placeholder k =>
      show (r.toMemo.placeholder k).2.finished.lookup key = _
      rw [Memo.placeholder_finished]
      rfl
  | setResolution k t =>
      rw [run, Memo.setResolution_finished]
      rfl
  | enter k =>
      show (r.enter k).2.toMemo.finished.lookup key = _
      rw [r.enter_toMemo]
      rfl
  | finish k t =>
      rw [run, Memo.lookup_finish, finishing?]
      by_cases hk : key = k
      · simp [hk]
      · simp [hk, Ne.symm hk]
  | finished k =>
      show (r.toMemo.finished? k).2.finished.lookup key = _
      rw [Memo.finished?_eq]
      rfl
  | _ => rfl

/-- **The finished type of a key is the last one.** -/
theorem lookup_finished_after : (r.after ops).finished.lookup key
    = (lastFinished? key ops).or (r.finished.lookup key) := by
  induction ops generalizing r with
  | nil => rfl
  | cons o ops ih =>
      rw [Resolver.after_cons, ih, lookup_finished_run, ← Option.or_assoc, lastFinished?,
        lastFinished?, List.reverse_cons, List.findSome?_append]
      simp

theorem run_finished : ((finished key).run r).1 = .found (r.finished.lookup key) := by
  show Answer.found (r.toMemo.finished? key).1 = _
  rw [Memo.finished?_eq]

theorem reuseCount_run : (o.run r).2.reuseCount
    = r.reuseCount + if (o.run r).1.isHit then 1 else 0 := by
  cases o with
  | placeholder k => exact (Memo.placeholder_counts _ k).1
  | setResolution k t => exact Memo.setResolution_reuseCount _ k t
  | enter k => exact congrArg Memo.reuseCount (r.enter_toMemo k)
  | finished k =>
      show (r.toMemo.finished? k).2.reuseCount = _
      rw [run_finished, Memo.finished?_eq]
      cases r.finished.lookup k <;> rfl
  | _ => rfl

theorem reuseCount_after :
    (r.after ops).reuseCount = r.reuseCount + (r.answers ops).countP Answer.isHit := by
  induction ops generalizing r with
  | nil => rfl
  | cons o ops ih =>
      rw [Resolver.after_cons, ih, reuseCount_run, Resolver.answers, List.countP_cons]
      omega

/-! ### What is read and what is written -/

/-- An operation changes nothing but what it writes. -/
theorem sameAt_run {place : Resolver.Place} (h : place ∉ o.writes) : r.SameAt (o.run r).2 place := by
  cases place with
  | resolution key =>
      rw [Resolver.SameAt, lookup_run]
      cases o <;> simp_all [writes]
  | active key =>
      rw [Resolver.SameAt, mem_active_run]
      cases o <;> simp_all [writes, eq_comm]
  | finished key =>
      rw [Resolver.SameAt, lookup_finished_run]
      cases o <;> simp_all [writes, finishing?, eq_comm]
  | resolutionCount =>
      rw [Resolver.SameAt, resolutionCount_run_of_ne]
      rintro k t rfl
      simp [writes] at h
  | reuseCount =>
      rw [Resolver.SameAt, reuseCount_run]
      cases o with
      | finished k => simp [writes] at h
      | _ => rfl

theorem sameAt_after {place : Resolver.Place} (h : ∀ o ∈ ops, place ∉ o.writes) :
    r.SameAt (r.after ops) place := by
  induction ops generalizing r with
  | nil => exact .refl r place
  | cons o ops ih =>
      obtain ⟨ho, hops⟩ := List.forall_mem_cons.mp h
      exact (sameAt_run ho).trans (ih hops)

/-- An answer depends on nothing but what is read. -/
theorem run_of_sameAt (h : ∀ place ∈ o.reads, r.SameAt r' place) :
    (o.run r).1 = (o.run r').1 := by
  cases o with
  | placeholder k =>
      show Answer.type (r.toMemo.placeholder k).1 = .type (r'.toMemo.placeholder k).1
      rw [Memo.placeholder_fst, Memo.placeholder_fst]
  | resolve t => rw [run, run, Resolver.resolve_of_sameAt h]
  | enter k =>
      have hkey : k ∈ r.active ↔ k ∈ r'.active := h (.active k) (by simp [reads])
      show Answer.entered (r.enter k).1 = .entered (r'.enter k).1
      by_cases hk : k ∈ r.active
      · simp [Resolver.enter, hk, hkey.mp hk]
      · simp [Resolver.enter, hk, mt hkey.mpr hk]
  | finished k =>
      have hkey : r.finished.lookup k = r'.finished.lookup k :=
        h (.finished k) (by simp [reads])
      rw [run_finished, run_finished, hkey]
  | resolveAll attributes =>
      have hall : ∀ a ∈ attributes, r.resolve a.type = r'.resolve a.type :=
        fun a ha => Resolver.resolve_of_sameAt fun place hplace =>
          h place (List.mem_flatMap.mpr ⟨a, ha, hplace⟩)
      rw [run, run, Memo.resolveAll, Memo.resolveAll]
      simp only [Answer.attributes.injEq, List.map_inj_left]
      intro a ha
      rw [hall a ha]
  | resolutionCount => exact congrArg Answer.count (h .resolutionCount (by simp [reads]))
  | reuseCount => exact congrArg Answer.count (h .reuseCount (by simp [reads]))
  | _ => rfl

/-- Operations that write nothing that is read do not change an answer. -/
theorem answer_append_of_disjoint (h : ∀ o' ∈ more, o'.writes.Disjoint o.reads) :
    o.answer (ops ++ more) = o.answer ops := by
  unfold answer
  rw [Resolver.after_append]
  refine (run_of_sameAt fun place hreads => ?_).symm
  exact sameAt_after fun o' ho' hwrites => h o' ho' hwrites hreads

/-! ### All answers -/

/-- **A resolver answers from its history.**

Behind the placeholder of a key is the first type that was set after the placeholder had been handed
out, and once there it stays, whatever is asked later; what has been resolved is not resolved
further, and resolving attributes leaves their names where they are.  The count of resolutions is the
number of keys with a type behind them.  A key may be entered if it was left after each time that it
was entered.  The finished type of a key is the last one, and each time one was found is counted.  No
answer is changed by operations that write nothing that it reads. -/
theorem answers_follow_history (ops : List Operation) (hops : SetsTypes ops) :
    (∀ key, (placeholder key).answer ops = .type (.unresolved key) ∧
      (resolve (.unresolved key)).answer ops
        = .type ((settled? key ops).getD (.unresolved key))) ∧
    (∀ key t more, (resolve (.unresolved key)).answer ops = .type t → t.isUnresolved = false →
      (resolve (.unresolved key)).answer (ops ++ more) = .type t) ∧
    (∀ t u, (resolve t).answer ops = .type u → (resolve u).answer ops = .type u) ∧
    (∀ attributes, ∃ resolved, (resolveAll attributes).answer ops = .attributes resolved ∧
      List.Forall₂ (fun a b => b.name = a.name ∧ (resolve a.type).answer ops = .type b.type)
        attributes resolved) ∧
    (∃ n : Nat, resolutionCount.answer ops = .count n ∧
      {key | ∃ t, (resolve (.unresolved key)).answer ops = .type t ∧
        t.isUnresolved = false}.encard = n) ∧
    (∀ key, (enter key).answer ops = .entered true ↔
      ∀ before later, ops = before ++ .enter key :: later →
        (enter key).answer before = .entered true → .leave key ∈ later) ∧
    (∀ key, (finished key).answer ops = .found (lastFinished? key ops)) ∧
    reuseCount.answer ops = .count ((Resolver.empty.answers ops).countP Answer.isHit) ∧
    ∀ (o : Operation) (more : List Operation), (∀ o' ∈ more, o'.writes.Disjoint o.reads) →
      o.answer (ops ++ more) = o.answer ops := by
  refine ⟨fun key => ⟨?_, ?_⟩, ?_, ?_, fun attributes => ⟨_, rfl, ?_⟩, ⟨_, rfl, ?_⟩,
    fun key => entered_after_iff, fun key => ?_, ?_, fun o more => answer_append_of_disjoint⟩
  · show Answer.type ((Resolver.empty.after ops).placeholder key).1 = _
    rw [Memo.placeholder_fst]
  · rw [answer_resolve, resolve_after hops]
  · intro key t more hresolve ht
    have hbefore : (Resolver.empty.after ops).resolve (.unresolved key) = t :=
      Answer.type.inj hresolve
    rw [answer_resolve, Resolver.after_append, resolve_after_of_type hbefore ht]
  · intro t u hresolve
    obtain rfl : (Resolver.empty.after ops).resolve t = u := Answer.type.inj hresolve
    rw [answer_resolve, resolve_idempotent hops]
  · unfold Memo.resolveAll
    rw [List.forall₂_map_right_iff, List.forall₂_same]
    exact fun a _ => ⟨rfl, rfl⟩
  · have hknown := encard_known_after (r := .empty) hops (by rw [Resolver.known_empty]; simp; rfl)
    rw [Resolver.known_eq] at hknown
    simpa [answer_resolve] using hknown
  · rw [answer, run_finished, lookup_finished_after]
    simp [Resolver.empty, Memo.empty]
  · show Answer.count (Resolver.empty.after ops).reuseCount = _
    rw [reuseCount_after]
    exact congrArg Answer.count (Nat.zero_add _)

/-- A type that is set before its placeholder was handed out, then one after it and one too many;
a second key is left waiting. -/
theorem answers_follow_history_of_two_keys : ∃ ops : List Operation,
    ops = [.setResolution ⟨1⟩ .int, .placeholder ⟨1⟩, .enter ⟨1⟩, .setResolution ⟨1⟩ .bool,
      .setResolution ⟨1⟩ .string, .placeholder ⟨2⟩, .finished ⟨1⟩, .finish ⟨1⟩ .bool,
      .finished ⟨1⟩, .leave ⟨1⟩, .enter ⟨2⟩] ∧
    SetsTypes ops ∧
    (resolve (.unresolved ⟨1⟩)).answer ops = .type .bool ∧
    (resolve (.unresolved ⟨2⟩)).answer ops = .type (.unresolved ⟨2⟩) ∧
    {key | ∃ t, (resolve (.unresolved key)).answer ops = .type t ∧
      t.isUnresolved = false}.encard = 1 ∧
    (∀ before later, ops = before ++ .enter ⟨1⟩ :: later →
      (enter ⟨1⟩).answer before = .entered true → .leave ⟨1⟩ ∈ later) ∧
    (finished ⟨1⟩).answer ops = .found (some .bool) ∧
    reuseCount.answer ops = .count 1 ∧
    (resolve (.unresolved ⟨1⟩)).answer
      (ops ++ [.setResolution ⟨2⟩ .int, .leave ⟨1⟩, .finish ⟨1⟩ .int]) = .type .bool := by
  let ops : List Operation := [.setResolution ⟨1⟩ .int, .placeholder ⟨1⟩, .enter ⟨1⟩,
    .setResolution ⟨1⟩ .bool, .setResolution ⟨1⟩ .string, .placeholder ⟨2⟩, .finished ⟨1⟩,
    .finish ⟨1⟩ .bool, .finished ⟨1⟩, .leave ⟨1⟩, .enter ⟨2⟩]
  have hops : SetsTypes ops := by
    intro key t ht
    simp only [ops, List.mem_cons, reduceCtorEq, setResolution.injEq, List.not_mem_nil, or_false,
      false_or] at ht
    obtain ⟨-, rfl⟩ | ⟨-, rfl⟩ | ⟨-, rfl⟩ := ht <;> rfl
  obtain ⟨hresolve, -, -, -, ⟨n, hn, hcount⟩, henter, hfinished, hreuse, hframe⟩ :=
    answers_follow_history ops hops
  obtain rfl : 1 = n := Answer.count.inj hn
  have hone : (resolve (.unresolved ⟨1⟩)).answer ops = .type .bool := (hresolve ⟨1⟩).2
  refine ⟨ops, rfl, hops, hone, (hresolve ⟨2⟩).2, hcount, (henter ⟨1⟩).mp rfl, hfinished ⟨1⟩,
    hreuse, ?_⟩
  rw [hframe _ _ (by simp [reads, writes, Resolver.Place.behind])]
  exact hone

end Operation

end StreamQuery
