/-
Decoding of UTF-8.

`decodeChar` takes one character off the front of a list of bytes and `decode` a whole list.  A
list that is no text is answered with the number of bytes in front of the first sequence that
stands for no character.
-/
namespace StreamQuery.Text.Utf8

/-- Whether a byte continues a sequence. -/
def isTail (b : UInt8) : Bool :=
  0x80 ≤ b && b ≤ 0xBF

/-- The six low bits of a byte that continues a sequence. -/
def tailBits (b : UInt8) : Nat :=
  b.toNat - 0x80

/-- The first character of a list of bytes and the number of bytes it takes.  Overlong sequences,
surrogates and values beyond the last code point stand for no character. -/
def decodeChar : List UInt8 → Option (Char × Nat)
  | [] => none
  | a :: rest =>
    if a < 0x80 then some (Char.ofNat a.toNat, 1)
    else if 0xC2 ≤ a && a ≤ 0xDF then
      match rest with
      | b :: _ =>
        if isTail b then some (Char.ofNat ((a.toNat - 0xC0) * 64 + tailBits b), 2) else none
      | _ => none
    else if 0xE0 ≤ a && a ≤ 0xEF then
      match rest with
      | b :: c :: _ =>
        let low : UInt8 := if a = 0xE0 then 0xA0 else 0x80
        let high : UInt8 := if a = 0xED then 0x9F else 0xBF
        if low ≤ b && b ≤ high && isTail c then
          some (Char.ofNat ((a.toNat - 0xE0) * 4096 + tailBits b * 64 + tailBits c), 3)
        else none
      | _ => none
    else if 0xF0 ≤ a && a ≤ 0xF4 then
      match rest with
      | b :: c :: d :: _ =>
        let low : UInt8 := if a = 0xF0 then 0x90 else 0x80
        let high : UInt8 := if a = 0xF4 then 0x8F else 0xBF
        if low ≤ b && b ≤ high && isTail c && isTail d then
          some (Char.ofNat ((a.toNat - 0xF0) * 262144 + tailBits b * 4096 + tailBits c * 64
            + tailBits d), 4)
        else none
      | _ => none
    else none

/-- The text that the bytes spell.  `skip` bytes belong to the character before, and `start` bytes
came before the list. -/
def decodeFrom : Nat → Nat → List UInt8 → Except Nat (List Char)
  | _, _, [] => .ok []
  | start, skip + 1, _ :: rest => decodeFrom (start + 1) skip rest
  | start, 0, b :: rest =>
    match decodeChar (b :: rest) with
    | none => .error start
    | some (c, n) => (decodeFrom (start + 1) (n - 1) rest).map (c :: ·)

/-- The text that a list of bytes spells, or the length of its longest readable beginning. -/
def decode (bytes : List UInt8) : Except Nat (List Char) :=
  decodeFrom 0 0 bytes

/-- The bytes of a text. -/
def encode (s : String) : List UInt8 :=
  s.toByteArray.data.toList

end StreamQuery.Text.Utf8
