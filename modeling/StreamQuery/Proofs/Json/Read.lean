/-
What is printed is read back, as deep as reading goes.

A value that stands in a text is read by the machine from any state that waits for a
value: it takes the tokens of the value and puts the value in its place, with whatever
is nested too deep left unread.  `cut` says what is left.  How much room there is
depends on how many containers are open, so the statement is about the machine inside
any stack, and the induction is on the value.

From that, `parse_chars`: the value itself comes back if it nests no deeper than the
limit, and nothing comes back otherwise.
-/
import StreamQuery.Proofs.Json.Token

namespace StreamQuery.Json

/-! ### Values as they are printed -/

mutual
/-- A value that is printed as it is: integers fit 64 bits, and of each object every key comes
once. -/
def Written : Json → Prop
  | .null | .bool _ | .str _ => True
  | .int n => Int64.minValue.toInt ≤ n ∧ n < UInt64.size
  | .decimal _ _ | .unread => False
  | .arr items => AllWritten items
  | .obj members => (members.map Prod.fst).Nodup ∧ MembersWritten members
/-- All items are printed as they are. -/
def AllWritten : List Json → Prop
  | [] => True
  | j :: js => Written j ∧ AllWritten js
/-- The values of all members are printed as they are. -/
def MembersWritten : List (String × Json) → Prop
  | [] => True
  | (_, j) :: rest => Written j ∧ MembersWritten rest
end

theorem allWritten_iff : ∀ {js : List Json}, AllWritten js ↔ ∀ j ∈ js, j.Written
  | [] => by simp [AllWritten]
  | j :: js => by rw [AllWritten, allWritten_iff, List.forall_mem_cons]

theorem membersWritten_iff : ∀ {ms : List (String × Json)},
    MembersWritten ms ↔ ∀ m ∈ ms, m.2.Written
  | [] => by simp [MembersWritten]
  | (k, j) :: ms => by rw [MembersWritten, membersWritten_iff, List.forall_mem_cons]

mutual
/-- The value with every container left unread around which `room` others are open. -/
def cut (room : Nat) : Json → Json
  | .arr items => if room = 0 then .unread else .arr (cutAll (room - 1) items)
  | .obj members => if room = 0 then .unread else .obj (cutMembers (room - 1) members)
  | j => j
/-- The items with what is too deep left unread. -/
def cutAll (room : Nat) : List Json → List Json
  | [] => []
  | j :: js => cut room j :: cutAll room js
/-- The members with what is too deep left unread. -/
def cutMembers (room : Nat) : List (String × Json) → List (String × Json)
  | [] => []
  | (k, j) :: rest => (k, cut room j) :: cutMembers room rest
end

mutual
/-- A value that is no deeper than the room is read as it is. -/
theorem cut_of_le {room : Nat} : ∀ j : Json, depth j ≤ room → cut room j = j
  | .arr items, h => by
      rw [depth] at h
      rw [cut, if_neg (by omega), cutAll_of_le items (by omega)]
  | .obj members, h => by
      rw [depth] at h
      rw [cut, if_neg (by omega), cutMembers_of_le members (by omega)]
  | .null, _ => rfl
  | .bool _, _ => rfl
  | .int _, _ => rfl
  | .decimal _ _, _ => rfl
  | .str _, _ => rfl
  | .unread, _ => rfl
theorem cutAll_of_le {room : Nat} : ∀ js : List Json, depthAll js ≤ room → cutAll room js = js
  | [], _ => rfl
  | j :: js, h => by
      rw [depthAll] at h
      rw [cutAll, cut_of_le j (by omega), cutAll_of_le js (by omega)]
theorem cutMembers_of_le {room : Nat} : ∀ ms : List (String × Json), depthMembers ms ≤ room →
    cutMembers room ms = ms
  | [], _ => rfl
  | (k, j) :: ms, h => by
      rw [depthMembers] at h
      rw [cutMembers, cut_of_le j (by omega), cutMembers_of_le ms (by omega)]
end

mutual
/-- Of a value that is printed as it is, only what is too deep is left unread. -/
theorem readable_cut {room : Nat} : ∀ j : Json, j.Written →
    (cut room j).readable = decide (depth j ≤ room)
  | .arr items, h => by
      rw [Written] at h
      rw [cut, depth]
      split
      · rw [readable, eq_comm, decide_eq_false_iff_not]
        omega
      · rw [readable, readableAll_cut items h, decide_eq_decide]
        omega
  | .obj members, h => by
      rw [Written] at h
      rw [cut, depth]
      split
      · rw [readable, eq_comm, decide_eq_false_iff_not]
        omega
      · rw [readable, readableMembers_cut members h.2, decide_eq_decide]
        omega
  | .null, _ => by simp [cut, readable, depth]
  | .bool _, _ => by simp [cut, readable, depth]
  | .int _, _ => by simp [cut, readable, depth]
  | .decimal _ _, h => by rw [Written] at h; exact h.elim
  | .str _, _ => by simp [cut, readable, depth]
  | .unread, h => by rw [Written] at h; exact h.elim
theorem readableAll_cut {room : Nat} : ∀ js : List Json, AllWritten js →
    readableAll (cutAll room js) = decide (depthAll js ≤ room)
  | [], _ => by simp [cutAll, readableAll, depthAll]
  | j :: js, h => by
      rw [AllWritten] at h
      rw [cutAll, readableAll, depthAll, readable_cut j h.1, readableAll_cut js h.2,
        ← Bool.decide_and, decide_eq_decide]
      omega
theorem readableMembers_cut {room : Nat} : ∀ ms : List (String × Json), MembersWritten ms →
    readableMembers (cutMembers room ms) = decide (depthMembers ms ≤ room)
  | [], _ => by simp [cutMembers, readableMembers, depthMembers]
  | (k, j) :: ms, h => by
      rw [MembersWritten] at h
      rw [cutMembers, readableMembers, depthMembers, readable_cut j h.1,
        readableMembers_cut ms h.2, ← Bool.decide_and, decide_eq_decide]
      omega
end

theorem lastMembers_of_nodup : ∀ {members : List (String × Json)}, (members.map Prod.fst).Nodup →
    lastMembers members = members := by
  intro members
  induction members with
  | nil => intro _; rfl
  | cons m rest ih =>
      intro h
      obtain ⟨k, j⟩ := m
      rw [List.map_cons, List.nodup_cons] at h
      have honce : ¬ (rest.any fun m => m.1 == k) = true := by
        intro hany
        obtain ⟨m, hm, hk⟩ := List.any_eq_true.mp hany
        rw [beq_iff_eq] at hk
        have hmem : m.1 ∈ rest.map Prod.fst := List.mem_map_of_mem hm
        rw [hk] at hmem
        exact h.1 hmem
      rw [lastMembers, if_neg honce, ih h.2]

mutual
/-- In a value that is printed as it is no key comes again. -/
theorem distinct_of_written : ∀ j : Json, j.Written → distinct j = j
  | .arr items, h => by
      rw [Written] at h
      rw [distinct, distinctAll_of_written items h]
  | .obj members, h => by
      rw [Written] at h
      rw [distinct, distinctMembers_of_written members h.2, lastMembers_of_nodup h.1]
  | .null, _ => rfl
  | .bool _, _ => rfl
  | .int _, _ => rfl
  | .decimal _ _, _ => rfl
  | .str _, _ => rfl
  | .unread, _ => rfl
theorem distinctAll_of_written : ∀ js : List Json, AllWritten js → distinctAll js = js
  | [], _ => rfl
  | j :: js, h => by
      rw [AllWritten] at h
      rw [distinctAll, distinct_of_written j h.1, distinctAll_of_written js h.2]
theorem distinctMembers_of_written : ∀ ms : List (String × Json), MembersWritten ms →
    distinctMembers ms = ms
  | [], _ => rfl
  | (k, j) :: ms, h => by
      rw [MembersWritten] at h
      rw [distinctMembers, distinct_of_written j h.1, distinctMembers_of_written ms h.2]
end

/-! ### Single tokens -/

/-- A blank is no part of a token. -/
theorem token_space {c : Char} (h : isSpace c = true) (cs : List Char) :
    token (c :: cs) = none := by
  simp only [isSpace, Bool.or_eq_true, decide_eq_true_eq] at h
  rcases h with ((rfl | rfl) | rfl) | rfl <;> rfl

/-- The machine takes in the token at the front. -/
theorem readOn_token {m m' : Machine} {cs rest : List Char} {t : Token}
    (ht : token cs = some (t, rest)) (hstep : m.step t = some m') :
    readOn m cs = readOn m' rest := by
  cases cs with
  | nil => cases ht
  | cons c cs =>
      have hspace : ¬ isSpace c = true := by
        intro hc
        rw [token_space hc] at ht
        cases ht
      rw [readOn, if_neg hspace]
      split
      · rename_i hnone
        rw [ht] at hnone
        cases hnone
      · rename_i t' rest' hsome
        rw [ht] at hsome
        cases hsome
        rw [hstep]

/-- The machine waits for a value. -/
def Begins (e : Expected) : Prop :=
  e = .value ∨ e = .firstItem

theorem readOn_scalar {e : Expected} (he : Begins e) {cs rest : List Char} {j : Json}
    (ht : token cs = some (.scalar j, rest)) (stack : List Frame) :
    readOn ⟨stack, e⟩ cs = readOn (Machine.place stack j) rest := by
  refine readOn_token ht ?_
  rcases he with rfl | rfl <;> rfl

/-! ### Values inside a stack -/

/-- How many containers may still be opened inside a stack. -/
def room (stack : List Frame) : Nat :=
  maxDepth - stack.length

theorem room_cons (frame : Frame) (stack : List Frame) :
    room (frame :: stack) = room stack - 1 := by
  unfold room
  rw [List.length_cons, Nat.sub_sub]

theorem namedMembers?_some : ∀ (members done : List (String × Json)),
    Machine.namedMembers? (members.map fun m => (some m.1, m.2)) done
      = some (members.reverse ++ done) := by
  intro members
  induction members with
  | nil => intro done; rfl
  | cons m members ih =>
      intro done
      rw [List.map_cons, Machine.namedMembers?, ih]
      simp

theorem closeArray_cut (stack : List Frame) (items : List Json) :
    Machine.closeArray stack (cutAll (room stack - 1) items).reverse
      = Machine.place stack (cut (room stack) (.arr items)) := by
  unfold Machine.closeArray
  rw [List.reverse_reverse, cut]
  unfold room
  by_cases h : stack.length < maxDepth
  · rw [if_pos h, if_neg (by omega)]
  · rw [if_neg h, if_pos (by omega)]

theorem closeObject_cut (stack : List Frame) (members : List (String × Json)) :
    Machine.closeObject stack
        ((cutMembers (room stack - 1) members).reverse.map fun m => (some m.1, m.2))
      = Machine.place stack (cut (room stack) (.obj members)) := by
  unfold Machine.closeObject
  rw [namedMembers?_some, List.reverse_reverse, List.append_nil, cut]
  unfold room
  by_cases h : stack.length < maxDepth
  · rw [if_pos h, if_neg (by omega)]
  · rw [if_neg h, if_pos (by omega)]

/-- The machine waits for a key of the object with these members. -/
def BeginsKey (e : Expected) (done : List (Option String × Json)) : Prop :=
  e = .key done ∨ e = .firstKey ∧ done = []

/-- A key and its colon. -/
theorem readOn_key {e : Expected} {done : List (Option String × Json)} (he : BeginsKey e done)
    (stack : List Frame) (k : String) (cs : List Char) :
    readOn ⟨stack, e⟩ (quote k ++ ':' :: cs)
      = readOn ⟨.object done (some k) :: stack, .value⟩ cs := by
  have hkey : Machine.step ⟨stack, e⟩ (.text (some k)) = some ⟨stack, .colon done (some k)⟩ := by
    rcases he with rfl | ⟨rfl, rfl⟩ <;> rfl
  exact (readOn_token (token_quote k _) hkey).trans (readOn_token rfl rfl)

mutual
/-- **The tokens of a value put the value in its place**, as far as there is room. -/
theorem readOn_chars : ∀ (j : Json) (stack : List Frame) (e : Expected) (rest : List Char),
    j.Written → Begins e → Follows rest →
      readOn ⟨stack, e⟩ (chars j ++ rest) = readOn (Machine.place stack (cut (room stack) j)) rest
  | .null, stack, e, rest, _, he, _ => readOn_scalar he rfl stack
  | .bool true, stack, e, rest, _, he, _ => readOn_scalar he rfl stack
  | .bool false, stack, e, rest, _, he, _ => readOn_scalar he rfl stack
  | .int n, stack, e, rest, h, he, hrest => by
      rw [Written] at h
      exact readOn_scalar he (token_signedDecimal h.1 h.2 hrest) stack
  | .decimal _ _, _, _, _, h, _, _ => by rw [Written] at h; exact h.elim
  | .unread, _, _, _, h, _, _ => by rw [Written] at h; exact h.elim
  | .str s, stack, e, rest, _, he, _ => by
      refine readOn_token (token_quote s rest) ?_
      rcases he with rfl | rfl <;> rfl
  | .arr items, stack, e, rest, h, he, _ => by
      rw [Written] at h
      have hopen : Machine.step ⟨stack, e⟩ .openArray
          = some ⟨.array [] :: stack, .firstItem⟩ := by
        rcases he with rfl | rfl <;> rfl
      rw [chars, List.append_assoc, List.cons_append]
      refine (readOn_token rfl hopen).trans ?_
      rw [List.singleton_append, readOn_items items stack [] .firstItem rest h (.inr rfl)
        fun _ => rfl, List.append_nil, room_cons, closeArray_cut]
  | .obj members, stack, e, rest, h, he, _ => by
      rw [Written] at h
      have hopen : Machine.step ⟨stack, e⟩ .openObject = some ⟨stack, .firstKey⟩ := by
        rcases he with rfl | rfl <;> rfl
      rw [chars, List.append_assoc, List.cons_append]
      refine (readOn_token rfl hopen).trans ?_
      rw [List.singleton_append, readOn_members members stack [] .firstKey rest h.2
        (.inr ⟨rfl, rfl⟩) fun _ => rfl, List.append_nil, closeObject_cut]
/-- The items of an array, up to its end. -/
theorem readOn_items : ∀ (items : List Json) (stack : List Frame) (done : List Json)
    (e : Expected) (rest : List Char), AllWritten items → Begins e →
    (items = [] → e = .firstItem) →
      readOn ⟨.array done :: stack, e⟩ (separated [','] (itemChars items) ++ ']' :: rest)
        = readOn (Machine.closeArray stack
            ((cutAll (room (.array done :: stack)) items).reverse ++ done)) rest
  | [], stack, done, e, rest, _, _, hfirst => by
      obtain rfl := hfirst rfl
      exact readOn_token rfl rfl
  | [j], stack, done, e, rest, h, he, _ => by
      rw [AllWritten] at h
      rw [itemChars, itemChars, separated, readOn_chars j _ e _ h.1 he
        (follows_cons (.inr (.inl rfl)) rest)]
      exact readOn_token rfl rfl
  | j :: j' :: js, stack, done, e, rest, h, he, _ => by
      rw [AllWritten] at h
      have hcomma : Machine.step ⟨.array (cut (room (.array done :: stack)) j :: done) :: stack,
          .next⟩ .comma
          = some ⟨.array (cut (room (.array done :: stack)) j :: done) :: stack, .value⟩ := rfl
      have hrest := readOn_items (j' :: js) stack (cut (room (.array done :: stack)) j :: done)
        .value rest h.2 (.inl rfl) (by simp)
      rw [itemChars] at hrest ⊢
      rw [itemChars, separated, List.append_assoc, List.append_assoc, List.singleton_append,
        readOn_chars j _ e _ h.1 he (follows_cons (.inl rfl) _)]
      · refine (readOn_token rfl hcomma).trans (hrest.trans ?_)
        rw [cutAll.eq_2 _ j, List.reverse_cons, List.append_assoc]
        rfl
      · simp
/-- The members of an object, up to its end. -/
theorem readOn_members : ∀ (members : List (String × Json)) (stack : List Frame)
    (done : List (Option String × Json)) (e : Expected) (rest : List Char),
    MembersWritten members → BeginsKey e done → (members = [] → e = .firstKey) →
      readOn ⟨stack, e⟩ (separated [','] (memberChars members) ++ '}' :: rest)
        = readOn (Machine.closeObject stack
            (((cutMembers (room stack - 1) members).reverse.map fun m => (some m.1, m.2)) ++ done))
            rest
  | [], stack, done, e, rest, _, he, hfirst => by
      obtain rfl := hfirst rfl
      rcases he with h | ⟨-, rfl⟩
      · cases h
      · exact readOn_token rfl rfl
  | [(k, j)], stack, done, e, rest, h, he, _ => by
      rw [MembersWritten] at h
      rw [memberChars, memberChars, separated, List.append_assoc, List.cons_append,
        readOn_key he, readOn_chars j _ .value _ h.1 (.inl rfl)
        (follows_cons (.inr (.inr rfl)) rest), room_cons]
      exact readOn_token rfl rfl
  | (k, j) :: m :: members, stack, done, e, rest, h, he, _ => by
      rw [MembersWritten] at h
      have hcomma : Machine.step ⟨.object ((some k, cut (room stack - 1) j) :: done) none :: stack,
          .next⟩ .comma = some ⟨stack, .key ((some k, cut (room stack - 1) j) :: done)⟩ := rfl
      have hrest := readOn_members (m :: members) stack ((some k, cut (room stack - 1) j) :: done)
        (.key ((some k, cut (room stack - 1) j) :: done)) rest h.2 (.inl rfl) (by simp)
      rw [memberChars] at hrest ⊢
      rw [memberChars, separated, List.append_assoc, List.append_assoc, List.append_assoc,
        List.cons_append, List.singleton_append, readOn_key he,
        readOn_chars j _ .value _ h.1 (.inl rfl) (follows_cons (.inl rfl) _), room_cons]
      · refine (readOn_token rfl hcomma).trans (hrest.trans ?_)
        rw [cutMembers.eq_2 _ k, List.reverse_cons, List.map_append, List.append_assoc]
        rfl
      · simp
end

/-! ### Whole texts -/

theorem read_chars {j : Json} (h : j.Written) : read (chars j) = some (cut maxDepth j) := by
  have hread := readOn_chars j [] .value [] h (.inl rfl) follows_nil
  rw [List.append_nil] at hread
  unfold read Machine.start
  rw [hread]
  rw [readOn]
  rfl

/-- **A value comes back from its text if it nests no deeper than the limit**, and nothing does
otherwise. -/
theorem parse_chars {j : Json} (h : j.Written) :
    parse (chars j) = if depth j ≤ maxDepth then some j else none := by
  unfold parse
  rw [read_chars h, Option.bind_some, readable_cut j h]
  by_cases hdepth : depth j ≤ maxDepth
  · rw [if_pos (by simpa using hdepth), if_pos hdepth, cut_of_le j hdepth,
      distinct_of_written j h]
  · rw [if_neg (by simpa using hdepth), if_neg hdepth]

end StreamQuery.Json
