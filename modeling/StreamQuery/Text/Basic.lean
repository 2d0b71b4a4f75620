/-
Texts: their blanks, their parts and the numbers that they hold.

A character is blank when it has the White_Space property, so a no-break space or an
ideographic space around a name is dropped just as a plain space is.

`pieces` cuts at every separator character and `cut` at the first one only.  Neither loses a
character: putting the separator back between the parts gives the text again.  `throughLast` keeps
what stands up to the last of the places where a longer mark is.

A number is read from a whole text: a sign where the type admits one, then one digit or more and
nothing else.  A number outside the range of the type is no number.
-/
namespace StreamQuery.Text

/-! ### Blanks -/

/-- The characters with the White_Space property, as ranges of code points. -/
def blankRanges : List (Nat × Nat) :=
  [(0x09, 0x0D), (0x20, 0x20), (0x85, 0x85), (0xA0, 0xA0), (0x1680, 0x1680),
   (0x2000, 0x200A), (0x2028, 0x2029), (0x202F, 0x202F), (0x205F, 0x205F), (0x3000, 0x3000)]

/-- Whether a character is blank. -/
def isBlank (c : Char) : Bool :=
  blankRanges.any fun (first, last) => first ≤ c.toNat && c.toNat ≤ last

/-- A text without the blanks at its two ends. -/
def trim (cs : List Char) : List Char :=
  ((cs.dropWhile isBlank).reverse.dropWhile isBlank).reverse

/-- A text in lower case, letters of ASCII only. -/
def lower (cs : List Char) : List Char :=
  cs.map Char.toLower

/-! ### Parts between separators -/

/-- The parts of a text between its separators; there is always at least one. -/
def pieces (sep : Char) : List Char → List (List Char)
  | [] => [[]]
  | c :: cs =>
    if c = sep then [] :: pieces sep cs
    else match pieces sep cs with
      | [] => [[c]]
      | p :: ps => (c :: p) :: ps

/-- The text before the first separator, and the text after it if there is one. -/
def cut (sep : Char) : List Char → List Char × Option (List Char)
  | [] => ([], none)
  | c :: cs =>
    if c = sep then ([], some cs)
    else ((c :: (cut sep cs).1), (cut sep cs).2)

/-- The text up to the last mark in it, the mark included; none if there is no mark. -/
def throughLast (mark : List Char) : List Char → Option (List Char)
  | [] => none
  | c :: cs =>
    match throughLast mark cs with
    | some kept => some (c :: kept)
    | none => if mark.isPrefixOf (c :: cs) then some mark else none

/-! ### Decimal integers of 64 bits -/

/-- A non-empty run of decimal digits as a number. -/
def readDigits (cs : List Char) : Option Nat :=
  if !cs.isEmpty && cs.all Char.isDigit then some (Nat.ofDigitChars 10 cs 0) else none

/-- A number below 2^64 as a word. -/
def toWord? (n : Nat) : Option UInt64 :=
  if n < UInt64.size then some (UInt64.ofNat n) else none

/-- A number of the signed range of 64 bits. -/
def toInt64? (n : Int) : Option Int64 :=
  if Int64.minValue.toInt ≤ n ∧ n ≤ Int64.maxValue.toInt then some (Int64.ofInt n) else none

/-- An unsigned number; a plus sign may stand in front. -/
def readUnsigned : List Char → Option UInt64
  | '+' :: cs => readDigits cs >>= toWord?
  | cs => readDigits cs >>= toWord?

/-- A signed number; a plus or a minus sign may stand in front. -/
def readSigned : List Char → Option Int64
  | '+' :: cs => readDigits cs >>= fun n => toInt64? n
  | '-' :: cs => readDigits cs >>= fun n => toInt64? (-n)
  | cs => readDigits cs >>= fun n => toInt64? n

/-- A number in decimal. -/
def decimal (n : Nat) : List Char :=
  Nat.toDigits 10 n

/-- A signed number in decimal, with a minus sign if it is negative. -/
def signedDecimal (n : Int) : List Char :=
  if n < 0 then '-' :: decimal n.natAbs else decimal n.natAbs

end StreamQuery.Text
