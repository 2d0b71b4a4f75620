/-
The numbers and strings of a JSON text.

`number` and `string` each take one off the front of a list of characters and leave the rest.  Both
keep to the grammar of the format; what the grammar admits but no value can hold comes back
unread.
-/
import StreamQuery.Json.Basic

namespace StreamQuery.Json

/-! ### Numbers

A number that is no integer of 64 bits is held as a few digits and a power of ten.  The digits are
read into 64 bits, so of a long number only the first nineteen or twenty count, and the number is
in range if the product of the digits and the power, each rounded to a binary number of 53 bits,
is. -/

/-- Rounds to 53 binary digits, ties to the even neighbour. -/
def roundBinary (n : Nat) : Nat :=
  if n < Nat.pow 2 53 then n
  else
    let unit := Nat.pow 2 (n.log2 - 52)
    let rest := n % unit
    if unit < 2 * rest ∨ (unit = 2 * rest ∧ n / unit % 2 = 1) then (n / unit + 1) * unit
    else n / unit * unit

/-- The least magnitude that no binary number of 64 bits comes near enough to: a number from here
on has no value. -/
def overflow : Nat := Nat.pow 2 1024 - Nat.pow 2 970

/-- Whether `mantissa · 10^exponent` is below the magnitude at which numbers end. -/
def inRange (mantissa : Nat) (exponent : Int) : Bool :=
  if mantissa = 0 || exponent < 0 then true
  else if 308 < exponent then false
  else roundBinary mantissa * roundBinary (Nat.pow 10 exponent.toNat) < overflow

/-- The decimal `mantissa · 10^exponent`, if numbers go that far. -/
def ofDecimal (negative : Bool) (mantissa : Nat) (exponent : Int) : Json :=
  if inRange mantissa exponent then .decimal (if negative then -mantissa else mantissa) exponent
  else .unread

/-- Reads digits behind a number while it fits 64 bits, and counts the digits that are left out. -/
def appendDigits (n : Nat) : List Char → Nat × Nat
  | [] => (n, 0)
  | c :: cs =>
    let next := n * 10 + (c.toNat - '0'.toNat)
    if next < 2 ^ 64 then appendDigits next cs else (n, cs.length + 1)

/-- The number with these digits before and behind the point and this power of ten. -/
def ofDigits (negative : Bool) (whole places : List Char) (power : Int) : Json :=
  let (n, large) := appendDigits 0 whole
  let (n, small) := appendDigits n places
  ofDecimal negative n (large + small - places.length + power)

/-- The number written as digits alone.  Minus zero is no integer. -/
def ofInteger (negative : Bool) (whole : List Char) : Json :=
  let n := Nat.ofDigitChars 10 whole 0
  if negative then
    if 0 < n ∧ n ≤ Nat.pow 2 63 then .int (-n) else ofDigits true whole [] 0
  else
    if n < Nat.pow 2 64 then .int n else ofDigits false whole [] 0

/-- The digits at the front, and what follows them. -/
def digits (cs : List Char) : List Char × List Char :=
  (cs.takeWhile Char.isDigit, cs.dropWhile Char.isDigit)

/-- The whole part: a zero alone, or digits that do not begin with one. -/
def wholePart : List Char → Option (List Char × List Char)
  | '0' :: rest => some (['0'], rest)
  | cs => if (digits cs).1.isEmpty then none else some (digits cs)

/-- The digits after a point; none if there is a point without digits. -/
def fraction : List Char → Option (List Char × List Char)
  | '.' :: cs => if (digits cs).1.isEmpty then none else some (digits cs)
  | cs => some ([], cs)

/-- The digits of an exponent as a number. -/
def exponentDigits (negative : Bool) (cs : List Char) : Option (Option Int × List Char) :=
  if (digits cs).1.isEmpty then none
  else
    let n : Nat := Nat.ofDigitChars 10 (digits cs).1 0
    some (some (if negative then -n else n), (digits cs).2)

/-- The exponent behind a letter `e`, with a sign or without; none if the digits are missing. -/
def exponent : List Char → Option (Option Int × List Char)
  | 'e' :: '+' :: cs | 'E' :: '+' :: cs => exponentDigits false cs
  | 'e' :: '-' :: cs | 'E' :: '-' :: cs => exponentDigits true cs
  | 'e' :: cs | 'E' :: cs => exponentDigits false cs
  | cs => some (none, cs)

/-- A number without its sign. -/
def unsignedNumber (negative : Bool) (cs : List Char) : Option (Json × List Char) := do
  let (whole, rest) ← wholePart cs
  let (places, rest) ← fraction rest
  let (power, rest) ← exponent rest
  if places.isEmpty && power.isNone then some (ofInteger negative whole, rest)
  else some (ofDigits negative whole places (power.getD 0), rest)

/-- The number at the front of a text, and what follows it. -/
def number : List Char → Option (Json × List Char)
  | '-' :: cs => unsignedNumber true cs
  | cs => unsignedNumber false cs

/-! ### Strings -/

/-- The number of a hexadecimal digit. -/
def hexDigit? (c : Char) : Option Nat :=
  if '0' ≤ c ∧ c ≤ '9' then some (c.toNat - 48)
  else if 'a' ≤ c ∧ c ≤ 'f' then some (c.toNat - 87)
  else if 'A' ≤ c ∧ c ≤ 'F' then some (c.toNat - 55)
  else none

/-- The number of four hexadecimal digits. -/
def hexUnit? (a b c d : Char) : Option Nat := do
  some ((((← hexDigit? a) * 16 + (← hexDigit? b)) * 16 + (← hexDigit? c)) * 16 + (← hexDigit? d))

/-- The character that one letter behind a backslash stands for. -/
def shortEscape? : Char → Option Char
  | '"' => some '"'
  | '\\' => some '\\'
  | '/' => some '/'
  | 'b' => some '\x08'
  | 'f' => some '\x0c'
  | 'n' => some '\n'
  | 'r' => some '\r'
  | 't' => some '\t'
  | _ => none

/-- What a string holds so far: its characters, last first, or none if half of a surrogate pair
stood in it; and the first half of a pair that waits for the second. -/
structure Spelled where
  chars : Option (List Char)
  high : Option Nat

namespace Spelled

/-- The string without characters. -/
def empty : Spelled := ⟨some [], none⟩

/-- Adds a character. -/
def push (s : Spelled) (c : Char) : Spelled :=
  match s.high with
  | none => ⟨s.chars.map (c :: ·), none⟩
  | some _ => ⟨none, none⟩

/-- Adds a unit of sixteen bits, which may be half of a pair. -/
def pushUnit (s : Spelled) (unit : Nat) : Spelled :=
  if 0xD800 ≤ unit ∧ unit ≤ 0xDBFF then
    match s.high with
    | none => ⟨s.chars, some unit⟩
    | some _ => ⟨none, some unit⟩
  else if 0xDC00 ≤ unit ∧ unit ≤ 0xDFFF then
    match s.high with
    | none => ⟨none, none⟩
    | some high =>
      let c := Char.ofNat (0x10000 + (high - 0xD800) * 1024 + (unit - 0xDC00))
      ⟨s.chars.map (c :: ·), none⟩
  else s.push (Char.ofNat unit)

/-- The finished string. -/
def finish (s : Spelled) : Option String :=
  match s.high with
  | none => s.chars.map fun cs => String.ofList cs.reverse
  | some _ => none

end Spelled

/-- The rest of a string behind its first quote: what it spells, and what follows its last quote.
Control characters have to be escaped. -/
def stringFrom (s : Spelled) : List Char → Option (Option String × List Char)
  | [] => none
  | '"' :: rest => some (s.finish, rest)
  | '\\' :: 'u' :: a :: b :: c :: d :: rest =>
    match hexUnit? a b c d with
    | none => none
    | some unit => stringFrom (s.pushUnit unit) rest
  | '\\' :: e :: rest =>
    match shortEscape? e with
    | none => none
    | some c => stringFrom (s.push c) rest
  | c :: rest => if c.toNat < 0x20 then none else stringFrom (s.push c) rest

/-- The letter or letters that stand for a character between quotes. -/
def escape (c : Char) : List Char :=
  match c with
  | '"' => ['\\', '"']
  | '\\' => ['\\', '\\']
  | '\x08' => ['\\', 'b']
  | '\x0c' => ['\\', 'f']
  | '\n' => ['\\', 'n']
  | '\r' => ['\\', 'r']
  | '\t' => ['\\', 't']
  | c =>
    if c.toNat < 0x20 then
      ['\\', 'u', '0', '0', Nat.digitChar (c.toNat / 16), Nat.digitChar (c.toNat % 16)]
    else [c]

/-- A string between quotes. -/
def quote (s : String) : List Char :=
  '"' :: s.toList.flatMap escape ++ ['"']

end StreamQuery.Json
