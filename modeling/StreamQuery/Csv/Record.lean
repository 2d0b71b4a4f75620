/-
Records of comma-separated text.

The text is a list of bytes.  A comma ends a field; a carriage return or a line feed ends a record;
lines without anything on them are skipped.  A quote at the beginning of a field makes the commas
and line ends behind it part of the field up to the next quote, and two quotes in a row stand for
one.  What follows the closing quote is part of the field as it is, and the end of the text closes
everything.  A byte order mark at the beginning is dropped.

Each record knows where it began: behind the byte that ended the record before it.
-/
namespace StreamQuery.Csv

/-- A place in a text: the number of bytes before it, and its line, counted from one. -/
structure Position where
  byte : Nat
  line : Nat
deriving DecidableEq, Repr

/-- A record: where it began, and the bytes of its fields. -/
structure RawRecord where
  start : Position
  fields : List (List UInt8)
deriving DecidableEq, Repr

/-- Where the scanner is in a record. -/
inductive Phase where
  /-- Before the first byte of a record. -/
  | recordStart
  /-- Before the first byte of a field. -/
  | fieldStart
  /-- In a field outside of quotes. -/
  | field
  /-- Between quotes. -/
  | quoted
  /-- Behind a quote that may close the quoted part or be the first of two. -/
  | quoteInQuoted
deriving DecidableEq, Repr

/-- The scanner: lists are kept last first. -/
structure Scanner where
  phase : Phase
  here : Position
  start : Position
  field : List UInt8
  fields : List (List UInt8)
  records : List RawRecord

/-- The bytes that have a meaning. -/
def comma : UInt8 := 0x2C

/-- The quote. -/
def quote : UInt8 := 0x22

/-- The line feed. -/
def lineFeed : UInt8 := 0x0A

/-- The carriage return. -/
def carriageReturn : UInt8 := 0x0D

/-- Whether a byte ends a record. -/
def isEnd (b : UInt8) : Bool :=
  b == lineFeed || b == carriageReturn

namespace Scanner

/-- The scanner before the first byte, `skipped` bytes of a mark in front of it. -/
def begin (skipped : Nat) : Scanner :=
  ⟨.recordStart, ⟨skipped, 1⟩, ⟨0, 1⟩, [], [], []⟩

/-- Adds a byte to the field. -/
def push (s : Scanner) (b : UInt8) (phase : Phase) : Scanner :=
  { s with field := b :: s.field, phase }

/-- Ends the field. -/
def endField (s : Scanner) : Scanner :=
  { s with field := [], fields := s.field.reverse :: s.fields, phase := .fieldStart }

/-- Ends the field and the record; the next one begins here. -/
def endRecord (s : Scanner) : Scanner :=
  let t := s.endField
  { t with
    fields := []
    records := ⟨t.start, t.fields.reverse⟩ :: t.records
    start := t.here
    phase := .recordStart }

/-- Moves behind a byte. -/
def move (s : Scanner) (b : UInt8) : Scanner :=
  { s with here := ⟨s.here.byte + 1, if b = lineFeed then s.here.line + 1 else s.here.line⟩ }

/-- Takes in a byte outside of quotes; `phase` is the phase of a field that goes on. -/
def plain (s : Scanner) (b : UInt8) : Scanner :=
  if b = comma then s.endField
  else if isEnd b then s.endRecord
  else s.push b .field

/-- Takes in the first byte of a field. -/
def first (s : Scanner) (b : UInt8) : Scanner :=
  if b = quote then { s with phase := .quoted } else s.plain b

/-- Takes in one byte. -/
def step (s : Scanner) (b : UInt8) : Scanner :=
  let s := s.move b
  match s.phase with
  | .recordStart => if isEnd b then s else s.first b
  | .fieldStart => s.first b
  | .field => s.plain b
  | .quoted => if b = quote then { s with phase := .quoteInQuoted } else s.push b .quoted
  | .quoteInQuoted => if b = quote then s.push b .quoted else s.plain b

/-- The records when the text has ended. -/
def finish (s : Scanner) : List RawRecord :=
  match s.phase with
  | .recordStart => s.records.reverse
  | _ => s.endRecord.records.reverse

end Scanner

/-- The bytes behind a byte order mark, and the length of the mark. -/
def dropMark : List UInt8 → Nat × List UInt8
  | 0xEF :: 0xBB :: 0xBF :: rest => (3, rest)
  | bytes => (0, bytes)

/-- The records of a text. -/
def records (bytes : List UInt8) : List RawRecord :=
  let (skipped, rest) := dropMark bytes
  (rest.foldl Scanner.step (.begin skipped)).finish

end StreamQuery.Csv
