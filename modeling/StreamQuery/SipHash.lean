/-
SipHash with one compression round and three finalization rounds, under the all-zero key.

Names are turned into numbers by it: the number of a name is the hash of its UTF-8 bytes followed
by one byte 0xFF, which keeps a name apart from the same name with bytes appended.
-/
import StreamQuery.Text.Utf8

namespace StreamQuery.SipHash

/-- The four words that the rounds stir. -/
structure State where
  v0 : UInt64
  v1 : UInt64
  v2 : UInt64
  v3 : UInt64
deriving DecidableEq, Repr

/-- The bits of a word moved up by `n`, those that leave coming back below. -/
def rotate (x : UInt64) (n : UInt64) : UInt64 :=
  (x <<< n) ||| (x >>> (64 - n))

/-- The state of the all-zero key before any input. -/
def start : State :=
  ⟨0x736f6d6570736575, 0x646f72616e646f6d, 0x6c7967656e657261, 0x7465646279746573⟩

/-- One round. -/
def round (s : State) : State :=
  let a0 := s.v0 + s.v1
  let a1 := rotate s.v1 13 ^^^ a0
  let a0 := rotate a0 32
  let a2 := s.v2 + s.v3
  let a3 := rotate s.v3 16 ^^^ a2
  let b0 := a0 + a3
  let b3 := rotate a3 21 ^^^ b0
  let b2 := a2 + a1
  let b1 := rotate a1 17 ^^^ b2
  ⟨b0, b1, rotate b2 32, b3⟩

/-- Takes in one word of input. -/
def absorb (s : State) (m : UInt64) : State :=
  let t := round { s with v3 := s.v3 ^^^ m }
  { t with v0 := t.v0 ^^^ m }

/-- The word that bytes spell, the lowest first. -/
def word (bytes : List UInt8) : UInt64 :=
  bytes.foldr (fun b w => (w <<< 8) ||| b.toUInt64) 0

/-- Takes in the bytes in words of eight; the last word holds what is left and, in its top byte,
the length of the whole input. -/
def absorbAll (s : State) (total : UInt64) (bytes : List UInt8) : State :=
  if bytes.length < 8 then absorb s (word bytes ||| (total <<< 56))
  else absorbAll (absorb s (word (bytes.take 8))) total (bytes.drop 8)
termination_by bytes.length

/-- The word left when the input is in. -/
def finish (s : State) : UInt64 :=
  let t := round (round (round { s with v2 := s.v2 ^^^ 0xff }))
  t.v0 ^^^ t.v1 ^^^ t.v2 ^^^ t.v3

/-- The hash of a list of bytes. -/
def hash (bytes : List UInt8) : UInt64 :=
  finish (absorbAll start (UInt64.ofNat bytes.length) bytes)

/-- The number of a name. -/
def nameId (name : String) : UInt64 :=
  hash (Text.Utf8.encode name ++ [0xFF])

end StreamQuery.SipHash
