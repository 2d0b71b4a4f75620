/-
Reading a JSON text.

The text is taken token by token, and a machine with a stack of open containers puts the tokens
together.  A container that is nested too deep is put together like any other and then left
unread, so that the text around it can still be skipped.

`read` keeps everything a text says.  `parse` gives the value of the text for a reader that looks
at all of it: no part is unread and of a repeated key the last member counts.
-/
import StreamQuery.Json.Text

namespace StreamQuery.Json

/-- How deep arrays and objects may nest. -/
def maxDepth : Nat := 127

/-- The smallest parts of a text. -/
inductive Token where
  | openArray
  | closeArray
  | openObject
  | closeObject
  | comma
  | colon
  /-- A string; none if it has no value. -/
  | text (s : Option String)
  /-- A number or one of the three words. -/
  | scalar (j : Json)

/-- Whether a character may stand between tokens. -/
def isSpace (c : Char) : Bool :=
  c = ' ' || c = '\t' || c = '\n' || c = '\r'

/-- The token at the front of a text, and what follows it. -/
def token : List Char → Option (Token × List Char)
  | '[' :: cs => some (.openArray, cs)
  | ']' :: cs => some (.closeArray, cs)
  | '{' :: cs => some (.openObject, cs)
  | '}' :: cs => some (.closeObject, cs)
  | ',' :: cs => some (.comma, cs)
  | ':' :: cs => some (.colon, cs)
  | '"' :: cs => (stringFrom .empty cs).map fun (s, rest) => (.text s, rest)
  | 'n' :: 'u' :: 'l' :: 'l' :: cs => some (.scalar .null, cs)
  | 't' :: 'r' :: 'u' :: 'e' :: cs => some (.scalar (.bool true), cs)
  | 'f' :: 'a' :: 'l' :: 's' :: 'e' :: cs => some (.scalar (.bool false), cs)
  | cs => (number cs).map fun (j, rest) => (.scalar j, rest)

theorem digits_length (cs : List Char) : (digits cs).2.length ≤ cs.length := by
  exact (List.dropWhile_suffix Char.isDigit).length_le

theorem digits_shorter {cs : List Char} (h : (digits cs).1.isEmpty = false) :
    (digits cs).2.length < cs.length := by
  have parts : (digits cs).1 ++ (digits cs).2 = cs := by simp [digits]
  have size := congrArg List.length parts
  have pos : 0 < (digits cs).1.length := by
    cases hd : (digits cs).1 with
    | nil => simp [hd] at h
    | cons => simp
  simp only [List.length_append] at size
  omega

theorem wholePart_shorter {cs ds rest : List Char} (h : wholePart cs = some (ds, rest)) :
    rest.length < cs.length := by
  unfold wholePart at h
  split at h
  · cases h; simp
  · split at h
    · cases h
    · rename_i nonempty
      cases h
      exact digits_shorter (by simpa using nonempty)

theorem fraction_length {cs ds rest : List Char} (h : fraction cs = some (ds, rest)) :
    rest.length ≤ cs.length := by
  unfold fraction at h
  split at h
  · rename_i tail
    split at h
    · cases h
    · cases h
      exact Nat.le_succ_of_le (digits_length tail)
  · cases h; exact Nat.le_refl _

theorem exponentDigits_length {negative : Bool} {cs rest : List Char} {e : Option Int}
    (h : exponentDigits negative cs = some (e, rest)) : rest.length ≤ cs.length := by
  unfold exponentDigits at h
  split at h
  · cases h
  · cases h; exact digits_length cs

theorem exponent_length {cs rest : List Char} {e : Option Int} (h : exponent cs = some (e, rest)) :
    rest.length ≤ cs.length := by
  unfold exponent at h
  split at h
  case h_7 => cases h; exact Nat.le_refl _
  all_goals exact Nat.le_trans (exponentDigits_length h) (by simp only [List.length_cons]; omega)

theorem unsignedNumber_shorter {negative : Bool} {cs rest : List Char} {j : Json}
    (h : unsignedNumber negative cs = some (j, rest)) : rest.length < cs.length := by
  simp only [unsignedNumber, Option.bind_eq_bind, Option.bind_eq_some_iff] at h
  obtain ⟨⟨_, r1⟩, h1, ⟨_, r2⟩, h2, ⟨_, r3⟩, h3, h4⟩ := h
  have l1 : r1.length < cs.length := wholePart_shorter h1
  have l2 : r2.length ≤ r1.length := fraction_length h2
  have l3 : r3.length ≤ r2.length := exponent_length h3
  have same : r3 = rest := by
    simp only at h4
    split at h4 <;> (cases h4; rfl)
  subst same
  omega

theorem number_shorter {cs rest : List Char} {j : Json} (h : number cs = some (j, rest)) :
    rest.length < cs.length := by
  unfold number at h
  split at h
  · have := unsignedNumber_shorter h
    simp only [List.length_cons]
    omega
  · exact unsignedNumber_shorter h

theorem stringFrom_shorter {s : Spelled} {cs rest : List Char} {t : Option String}
    (h : stringFrom s cs = some (t, rest)) : rest.length < cs.length := by
  fun_induction stringFrom s cs with
  | case1 => cases h
  | case2 => cases h; simp
  | case3 => cases h
  | case4 _ _ _ _ _ _ _ _ ih => have := ih h; simp only [List.length_cons]; omega
  | case5 => cases h
  | case6 _ _ _ _ _ _ ih => have := ih h; simp only [List.length_cons]; omega
  | case7 => cases h
  | case8 _ _ _ _ _ _ _ ih => have := ih h; simp only [List.length_cons]; omega

theorem token_shorter {cs rest : List Char} {t : Token} (h : token cs = some (t, rest)) :
    rest.length < cs.length := by
  unfold token at h
  split at h
  case h_7 =>
    obtain ⟨⟨s, r⟩, hs, heq⟩ := Option.map_eq_some_iff.1 h
    cases heq
    have := stringFrom_shorter hs
    simp only [List.length_cons]
    omega
  case h_11 =>
    obtain ⟨⟨s, r⟩, hs, heq⟩ := Option.map_eq_some_iff.1 h
    cases heq
    exact number_shorter hs
  all_goals (cases h; simp only [List.length_cons]; omega)

/-- A container whose end has not come yet, with what it holds so far, last first.  The key of an
object's next member has already been read. -/
inductive Frame where
  | array (items : List Json)
  | object (members : List (Option String × Json)) (key : Option String)

/-- What the machine waits for. -/
inductive Expected where
  /-- A value. -/
  | value
  /-- A value, or the end of the array just begun. -/
  | firstItem
  /-- A key, or the end of the object just begun; the objects around it are on the stack. -/
  | firstKey
  /-- A key of the object with these members. -/
  | key (members : List (Option String × Json))
  /-- The colon behind a key. -/
  | colon (members : List (Option String × Json)) (key : Option String)
  /-- A comma, or the end of the innermost container. -/
  | next
  /-- Nothing: the text is complete. -/
  | nothing (j : Json)

/-- The machine: the open containers, innermost first, and what it waits for. -/
structure Machine where
  stack : List Frame
  expected : Expected

namespace Machine

/-- The machine before the first token. -/
def start : Machine := ⟨[], .value⟩

/-- Puts a complete value in its place. -/
def place (stack : List Frame) (j : Json) : Machine :=
  match stack with
  | [] => ⟨[], .nothing j⟩
  | .array items :: rest => ⟨.array (j :: items) :: rest, .next⟩
  | .object members key :: rest => ⟨.object ((key, j) :: members) none :: rest, .next⟩

/-- Completes an array inside `stack`. -/
def closeArray (stack : List Frame) (items : List Json) : Machine :=
  place stack (if stack.length < maxDepth then .arr items.reverse else .unread)

/-- The members of an object, in order, if every key has a value. -/
def namedMembers? : List (Option String × Json) → List (String × Json) → Option (List (String × Json))
  | [], done => some done
  | (some k, j) :: rest, done => namedMembers? rest ((k, j) :: done)
  | (none, _) :: _, _ => none

/-- Completes an object inside `stack`. -/
def closeObject (stack : List Frame) (members : List (Option String × Json)) : Machine :=
  place stack (if stack.length < maxDepth then
    match namedMembers? members [] with
    | some named => .obj named
    | none => .unread
  else .unread)

/-- Begins a value with a token that can begin one. -/
def begin? (stack : List Frame) : Token → Option Machine
  | .openArray => some ⟨.array [] :: stack, .firstItem⟩
  | .openObject => some ⟨stack, .firstKey⟩
  | .text (some s) => some (place stack (.str s))
  | .text none => some (place stack .unread)
  | .scalar j => some (place stack j)
  | _ => none

/-- Takes in one token; none if no text goes on like this. -/
def step (m : Machine) (t : Token) : Option Machine :=
  match m.expected, t with
  | .value, t => begin? m.stack t
  | .firstItem, .closeArray =>
    match m.stack with
    | .array items :: rest => some (closeArray rest items)
    | _ => none
  | .firstItem, t => begin? m.stack t
  | .firstKey, .closeObject => some (closeObject m.stack [])
  | .firstKey, .text key => some ⟨m.stack, .colon [] key⟩
  | .firstKey, _ => none
  | .key members, .text key => some ⟨m.stack, .colon members key⟩
  | .key _, _ => none
  | .colon members key, .colon => some ⟨.object members key :: m.stack, .value⟩
  | .colon _ _, _ => none
  | .next, .comma =>
    match m.stack with
    | .array items :: rest => some ⟨.array items :: rest, .value⟩
    | .object members _ :: rest => some ⟨rest, .key members⟩
    | [] => none
  | .next, .closeArray =>
    match m.stack with
    | .array items :: rest => some (closeArray rest items)
    | _ => none
  | .next, .closeObject =>
    match m.stack with
    | .object members _ :: rest => some (closeObject rest members)
    | _ => none
  | .next, _ => none
  | .nothing _, _ => none

/-- The value of a complete text. -/
def result : Machine → Option Json
  | ⟨_, .nothing j⟩ => some j
  | _ => none

end Machine

/-- Reads on with a machine to the end of a text. -/
def readOn (m : Machine) (cs : List Char) : Option Json :=
  match cs with
  | [] => m.result
  | c :: rest =>
    if isSpace c then readOn m rest
    else
      match h : token (c :: rest) with
      | none => none
      | some (t, rest') =>
        match m.step t with
        | none => none
        | some m' =>
          have := token_shorter h
          readOn m' rest'
termination_by cs.length
decreasing_by
  · simp
  · exact this

/-- The value that a text says, unread parts and repeated keys included; none if the text is not
JSON. -/
def read (text : List Char) : Option Json :=
  readOn .start text

/-- The value of a text all of which is looked at. -/
def parse (text : List Char) : Option Json :=
  (read text).bind fun j => if j.readable then some j.distinct else none

end StreamQuery.Json
