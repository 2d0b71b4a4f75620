/-
How deep a value that was read nests.

The reader puts every container together and leaves one unread that begins where `maxDepth`
others are open.  So what it has in hand is bounded by where it stands: inside a stack, an
item of the innermost container nests no deeper than the room that is left above it.  That
is an invariant of the machine, kept by every token, and at the end of the text, where the
stack is empty, it bounds the value by `maxDepth`.

Taking the last of repeated members does not make a value deeper, and afterwards no object
has a key twice.
-/
import StreamQuery.Proofs.Json.Read

namespace StreamQuery.Json

/-! ### Bounds on lists -/

theorem depthAll_le_iff {n : Nat} : ∀ {js : List Json},
    depthAll js ≤ n ↔ ∀ j ∈ js, depth j ≤ n
  | [] => by simp [depthAll]
  | j :: js => by
      rw [depthAll, Nat.max_le, depthAll_le_iff, List.forall_mem_cons]

theorem depthMembers_le_iff {n : Nat} : ∀ {ms : List (String × Json)},
    depthMembers ms ≤ n ↔ ∀ m ∈ ms, depth m.2 ≤ n
  | [] => by simp [depthMembers]
  | (k, j) :: ms => by
      rw [depthMembers, Nat.max_le, depthMembers_le_iff, List.forall_mem_cons]

/-! ### Numbers and words do not nest -/

theorem depth_ofDecimal (negative : Bool) (n : Nat) (exponent : Int) :
    depth (ofDecimal negative n exponent) = 0 := by
  unfold ofDecimal
  split
  · rfl
  · rfl

theorem depth_ofDigits (negative : Bool) (whole places : List Char) (power : Int) :
    depth (ofDigits negative whole places power) = 0 := by
  unfold ofDigits
  exact depth_ofDecimal _ _ _

theorem depth_ofInteger (negative : Bool) (whole : List Char) :
    depth (ofInteger negative whole) = 0 := by
  have hdigits := depth_ofDigits negative whole [] 0
  unfold ofInteger
  cases negative with
  | true =>
      simp only [if_true]
      split
      · rfl
      · exact hdigits
  | false =>
      simp only [Bool.false_eq_true, if_false]
      split
      · rfl
      · exact hdigits

theorem depth_of_unsignedNumber {negative : Bool} {cs rest : List Char} {j : Json}
    (h : unsignedNumber negative cs = some (j, rest)) : depth j = 0 := by
  simp only [unsignedNumber, Option.bind_eq_bind, Option.bind_eq_some_iff] at h
  obtain ⟨⟨whole, r1⟩, -, ⟨places, r2⟩, -, ⟨power, r3⟩, -, h⟩ := h
  simp only at h
  split at h
  · cases h
    exact depth_ofInteger _ _
  · cases h
    exact depth_ofDigits _ _ _ _

theorem depth_of_token {cs rest : List Char} {j : Json}
    (h : token cs = some (.scalar j, rest)) : depth j = 0 := by
  unfold token at h
  split at h
  case h_7 =>
    obtain ⟨⟨s, r⟩, -, heq⟩ := Option.map_eq_some_iff.mp h
    cases heq
  case h_11 =>
    obtain ⟨⟨s, r⟩, hnumber, heq⟩ := Option.map_eq_some_iff.mp h
    cases heq
    unfold number at hnumber
    split at hnumber
    · exact depth_of_unsignedNumber hnumber
    · exact depth_of_unsignedNumber hnumber
  all_goals
    cases h
    try rfl

/-! ### The machine -/

/-- What an open container holds nests no deeper than a bound. -/
def Frame.Within (n : Nat) : Frame → Prop
  | .array items => ∀ j ∈ items, depth j ≤ n
  | .object members _ => ∀ m ∈ members, depth m.2 ≤ n

/-- What the containers of a stack hold leaves room for the containers around it. -/
def StackWithin : List Frame → Prop
  | [] => True
  | frame :: rest => frame.Within (room (frame :: rest)) ∧ StackWithin rest

/-- What is in hand inside a stack leaves room for the containers around it. -/
def Expected.Within (stack : List Frame) : Expected → Prop
  | .key members | .colon members _ => ∀ m ∈ members, depth m.2 ≤ room stack - 1
  | .nothing j => depth j ≤ maxDepth
  | _ => True

/-- Everything that a machine holds leaves room for the containers around it. -/
structure Machine.Within (m : Machine) : Prop where
  stack : StackWithin m.stack
  expected : m.expected.Within m.stack

namespace Machine

variable {stack : List Frame} {m m' : Machine}

theorem within_start : start.Within :=
  ⟨trivial, trivial⟩

theorem within_place {j : Json} (hstack : StackWithin stack) (hj : depth j ≤ room stack) :
    (place stack j).Within := by
  cases stack with
  | nil => exact ⟨trivial, hj⟩
  | cons frame rest =>
      cases frame with
      | array items => exact ⟨⟨List.forall_mem_cons.mpr ⟨hj, hstack.1⟩, hstack.2⟩, trivial⟩
      | object members key =>
          exact ⟨⟨List.forall_mem_cons.mpr ⟨hj, hstack.1⟩, hstack.2⟩, trivial⟩

theorem within_closeArray {items : List Json} (hstack : StackWithin stack)
    (hitems : ∀ j ∈ items, depth j ≤ room stack - 1) : (closeArray stack items).Within := by
  refine within_place hstack ?_
  by_cases hroom : stack.length < maxDepth
  · have hall : depthAll items.reverse ≤ room stack - 1 :=
      depthAll_le_iff.mpr fun j hj => hitems j (List.mem_reverse.mp hj)
    rw [if_pos hroom, depth]
    unfold room at hall ⊢
    omega
  · rw [if_neg hroom]
    exact Nat.zero_le _

theorem namedMembers?_subset : ∀ {members : List (Option String × Json)}
    {done named : List (String × Json)}, namedMembers? members done = some named →
    ∀ m ∈ named, m ∈ done ∨ ∃ k, (k, m.2) ∈ members := by
  intro members
  induction members with
  | nil =>
      intro done named h m hm
      cases h
      exact .inl hm
  | cons entry rest ih =>
      intro done named h m hm
      obtain ⟨key, j⟩ := entry
      cases key with
      | none => cases h
      | some k =>
          rcases ih h m hm with hdone | ⟨k', hk'⟩
          · rcases List.mem_cons.mp hdone with rfl | hdone
            · exact .inr ⟨some k, List.mem_cons_self⟩
            · exact .inl hdone
          · exact .inr ⟨k', List.mem_cons_of_mem _ hk'⟩

theorem within_closeObject {members : List (Option String × Json)} (hstack : StackWithin stack)
    (hmembers : ∀ m ∈ members, depth m.2 ≤ room stack - 1) :
    (closeObject stack members).Within := by
  refine within_place hstack ?_
  by_cases hroom : stack.length < maxDepth
  · rw [if_pos hroom]
    split
    · rename_i named hnamed
      have hall : depthMembers named ≤ room stack - 1 := by
        rw [depthMembers_le_iff]
        intro m hm
        rcases namedMembers?_subset hnamed m hm with hdone | ⟨k, hk⟩
        · cases hdone
        · exact hmembers _ hk
      rw [depth]
      unfold room at hall ⊢
      omega
    · exact Nat.zero_le _
  · rw [if_neg hroom]
    exact Nat.zero_le _

theorem within_begin {t : Token} (hstack : StackWithin stack)
    (ht : ∀ j, t = .scalar j → depth j = 0) (h : begin? stack t = some m') : m'.Within := by
  cases t with
  | openArray =>
      cases h
      exact ⟨⟨fun j hj => absurd hj List.not_mem_nil, hstack⟩, trivial⟩
  | openObject =>
      cases h
      exact ⟨hstack, trivial⟩
  | text s =>
      cases s with
      | none =>
          cases h
          exact within_place hstack (Nat.zero_le _)
      | some s =>
          cases h
          exact within_place hstack (Nat.zero_le _)
  | scalar j =>
      cases h
      exact within_place hstack ((ht j rfl).symm ▸ Nat.zero_le _)
  | closeArray => cases h
  | closeObject => cases h
  | comma => cases h
  | colon => cases h

/-- A token leaves room for the containers around what the machine holds. -/
theorem Within.step {t : Token} (h : m.Within) (ht : ∀ j, t = .scalar j → depth j = 0)
    (hstep : m.step t = some m') : m'.Within := by
  obtain ⟨stack, expected⟩ := m
  obtain ⟨hstack, hexpected⟩ := h
  unfold Machine.step at hstep
  split at hstep
  · exact within_begin hstack ht hstep
  · split at hstep
    · rename_i items rest hitems
      obtain rfl : stack = .array items :: rest := hitems
      cases hstep
      exact within_closeArray hstack.2 (room_cons _ rest ▸ hstack.1)
    · cases hstep
  · exact within_begin hstack ht hstep
  · cases hstep
    exact within_closeObject hstack fun m hm => absurd hm List.not_mem_nil
  · cases hstep
    exact ⟨hstack, fun m hm => absurd hm List.not_mem_nil⟩
  · cases hstep
  · rename_i members key hwaits
    obtain rfl : expected = .key members := hwaits
    cases hstep
    exact ⟨hstack, hexpected⟩
  · cases hstep
  · rename_i members key hwaits
    obtain rfl : expected = .colon members key := hwaits
    cases hstep
    exact ⟨⟨(room_cons (.object members key) stack).symm ▸ hexpected, hstack⟩, trivial⟩
  · cases hstep
  · split at hstep
    · rename_i items rest hitems
      obtain rfl : stack = .array items :: rest := hitems
      cases hstep
      exact ⟨hstack, trivial⟩
    · rename_i members key rest hmembers
      obtain rfl : stack = .object members key :: rest := hmembers
      have hmembers' := hstack.1
      rw [room_cons] at hmembers'
      cases hstep
      exact ⟨hstack.2, hmembers'⟩
    · cases hstep
  · split at hstep
    · rename_i items rest hitems
      obtain rfl : stack = .array items :: rest := hitems
      cases hstep
      exact within_closeArray hstack.2 (room_cons _ rest ▸ hstack.1)
    · cases hstep
  · split at hstep
    · rename_i members key rest hmembers
      obtain rfl : stack = .object members key :: rest := hmembers
      cases hstep
      exact within_closeObject hstack.2 (room_cons (.object members key) rest ▸ hstack.1)
    · cases hstep
  · cases hstep
  · cases hstep

/-- What a machine reads to the end of a text nests no deeper than the limit. -/
theorem Within.readOn (cs : List Char) {m : Machine} (h : m.Within) {j : Json}
    (hread : readOn m cs = some j) : depth j ≤ maxDepth := by
  fun_induction Json.readOn m cs with
  | case1 m =>
      obtain ⟨stack, expected⟩ := m
      cases expected with
      | nothing j' =>
          cases hread
          exact h.expected
      | _ => cases hread
  | case2 m c rest hspace ih => exact ih h hread
  | case3 => cases hread
  | case4 => cases hread
  | case5 m c rest hspace t rest' htoken m' hstep hshorter ih =>
      refine ih (h.step (fun j hj => ?_) hstep) hread
      rw [hj] at htoken
      exact depth_of_token htoken

end Machine

/-- **A value that was read nests no deeper than the limit**; what is deeper is left unread. -/
theorem depth_of_read {text : List Char} {j : Json} (h : read text = some j) :
    depth j ≤ maxDepth :=
  Machine.within_start.readOn text h

/-! ### Repeated members -/

theorem lastMembers_sublist : ∀ members : List (String × Json),
    (lastMembers members).Sublist members
  | [] => .slnil
  | (k, j) :: rest => by
      rw [lastMembers]
      split
      · exact (lastMembers_sublist rest).cons _
      · exact (lastMembers_sublist rest).cons_cons _

/-- Of repeated members one is left. -/
theorem nodup_lastMembers : ∀ members : List (String × Json),
    ((lastMembers members).map Prod.fst).Nodup
  | [] => List.nodup_nil
  | (k, j) :: rest => by
      rw [lastMembers]
      split
      · exact nodup_lastMembers rest
      · rename_i honce
        rw [List.map_cons, List.nodup_cons]
        refine ⟨fun hmem => honce ?_, nodup_lastMembers rest⟩
        obtain ⟨m, hm, hk⟩ := List.mem_map.mp hmem
        exact List.any_eq_true.mpr
          ⟨m, (lastMembers_sublist rest).subset hm, by simpa using hk⟩

theorem mem_distinctMembers {k : String} {j : Json} : ∀ {members : List (String × Json)},
    (k, j) ∈ distinctMembers members → ∃ said, j = distinct said
  | [], h => by cases h
  | (k', j') :: rest, h => by
      rw [distinctMembers] at h
      rcases List.mem_cons.mp h with heq | hrest
      · cases heq
        exact ⟨j', rfl⟩
      · exact mem_distinctMembers hrest

/-- No object in a value has a key twice once the last of repeated members was taken. -/
theorem nodup_of_distinct {said : Json} {members : List (String × Json)}
    (h : distinct said = .obj members) : (members.map Prod.fst).Nodup := by
  cases said with
  | obj ms =>
      rw [distinct] at h
      cases h
      exact nodup_lastMembers _
  | arr items => rw [distinct] at h; cases h
  | _ => cases h

/-- So it is with the objects right inside it. -/
theorem nodup_of_member {said : Json} {key : String} {members : List (String × Json)}
    (h : (distinct said).member? key = some (.obj members)) : (members.map Prod.fst).Nodup := by
  cases said with
  | obj ms =>
      rw [distinct, member?] at h
      obtain ⟨⟨k, j⟩, hfound, hj⟩ := Option.map_eq_some_iff.mp h
      have hmem : (k, j) ∈ lastMembers (distinctMembers ms) := by
        rw [List.findRev?_eq_find?_reverse] at hfound
        exact List.mem_reverse.mp (List.mem_of_find?_eq_some hfound)
      obtain ⟨inner, rfl⟩ := mem_distinctMembers ((lastMembers_sublist _).subset hmem)
      exact nodup_of_distinct hj
  | arr items => rw [distinct] at h; cases h
  | _ => cases h

end StreamQuery.Json
