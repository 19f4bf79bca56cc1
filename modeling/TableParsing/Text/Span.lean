/-! # Spans of input text

Tokens and errors point into the input by **byte offsets** of its UTF-8 encoding, held in thirty-two
bits.  A length that does not fit is cut off at the largest offset (`offsetOf`), so that a span of a
very long input still points at its end.  A span is half open: `start` belongs to it and `stop` does
not. -/

namespace TableParsing

/-- The offset for a count of bytes; counts past the largest offset are cut off there. -/
def offsetOf (count : Nat) : UInt32 :=
  if count < UInt32.size then UInt32.ofNat count else UInt32.ofNat (UInt32.size - 1)

/-- The number of bytes that a text takes in UTF-8. -/
def byteCount (text : List Char) : Nat :=
  text.foldr (fun c bytes => c.utf8Size + bytes) 0

/-- Cuts a text after its first `count` bytes.  There is no answer when the text is shorter, or when
the cut would fall inside the encoding of a character. -/
def splitBytes? (text : List Char) (count : Nat) : Option (List Char × List Char) :=
  match count, text with
  | 0, text => some ([], text)
  | _ + 1, [] => none
  | count + 1, c :: text =>
    if c.utf8Size ≤ count + 1 then
      (splitBytes? text (count + 1 - c.utf8Size)).map fun (front, rest) => (c :: front, rest)
    else none
termination_by structural text

/-- The bytes from `start` up to, but not including, `stop`. -/
structure TextSpan where
  start : UInt32
  stop : UInt32
deriving DecidableEq, Inhabited, Repr

namespace TextSpan

/-- The span of `len` bytes from `start` on. -/
def ofLength (start len : Nat) : TextSpan :=
  ⟨offsetOf start, offsetOf (start + len)⟩

/-- The span without a byte at `offset`, which the end of an input has. -/
def emptyAt (offset : Nat) : TextSpan :=
  ofLength offset 0

variable (span : TextSpan)

/-- The number of bytes in the span. -/
def length : Nat := (span.stop - span.start).toNat

/-- Whether the span has no byte. -/
def isEmpty : Bool := span.stop == span.start

/-- Whether the byte at `offset` belongs to the span. -/
def contains (offset : UInt32) : Bool :=
  span.start ≤ offset && offset < span.stop

/-- The part of `text` under the span, when both ends fall between two of its characters. -/
def slice? (text : String) : Option String := do
  let (_, tail) ← splitBytes? text.toList span.start.toNat
  guard (span.start ≤ span.stop)
  let (part, _) ← splitBytes? tail (span.stop.toNat - span.start.toNat)
  return String.ofList part

/-- The two ends with two dots between them. -/
def render : String := s!"{span.start}..{span.stop}"

end TextSpan
end TableParsing
