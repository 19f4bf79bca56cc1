/-! # Ranges of characters

The characters are the Unicode scalar values in order of their code points.  The surrogate code
points are no characters, so the character after `'\uD7FF'` is `'\uE000'`: `Char.succ?` and
`predChar?` walk the characters without that gap, and `CharRange.width` counts them.

A `CharRange` is an interval of characters with both ends included; its type says that it is not
empty. -/

namespace TableParsing

/-- The character before `c`, unless `c` is the first one. -/
def predChar? (c : Char) : Option Char :=
  if c.ordinal.val = 0 then none
  else some (Char.ofOrdinal ⟨c.ordinal.val - 1, Nat.lt_of_le_of_lt (Nat.sub_le _ _) c.ordinal.isLt⟩)

/-- All characters from `lo` to `hi`, both included. -/
@[ext]
structure CharRange where
  lo : Char
  hi : Char
  lo_le_hi : lo ≤ hi
deriving DecidableEq

namespace CharRange

/-- The range with the given ends, if they are in order. -/
def ofBounds? (lo hi : Char) : Option CharRange :=
  if h : lo ≤ hi then some ⟨lo, hi, h⟩ else none

/-- The range between two characters, whichever of them comes first. -/
def between (a b : Char) : CharRange :=
  if h : a ≤ b then ⟨a, b, h⟩ else ⟨b, a, (Char.le_total a b).resolve_left h⟩

/-- The range of one character. -/
def single (c : Char) : CharRange := ⟨c, c, Char.le_refl c⟩

variable (r s : CharRange)

/-- Whether `c` lies between the ends. -/
def contains (c : Char) : Bool := r.lo ≤ c && c ≤ r.hi

/-- Whether some character lies in both ranges. -/
def overlaps : Bool := r.lo ≤ s.hi && s.lo ≤ r.hi

/-- Whether the two ranges together are one range: they overlap, or one follows the other
without a character between them. -/
def touches : Bool :=
  r.overlaps s || r.hi.succ? == some s.lo || s.hi.succ? == some r.lo

/-- The number of characters in the range. -/
def width : Nat := r.hi.ordinal.val - r.lo.ordinal.val + 1

/-- The smallest range that covers both. -/
def hull : CharRange where
  lo := if r.lo ≤ s.lo then r.lo else s.lo
  hi := if r.hi ≤ s.hi then s.hi else r.hi
  lo_le_hi := by
    have hr := r.lo_le_hi
    have hs := s.lo_le_hi
    split <;> split
    · exact Char.le_trans ‹r.lo ≤ s.lo› hs
    · exact hr
    · exact hs
    · exact Char.le_trans ((Char.le_total _ _).resolve_left ‹¬r.lo ≤ s.lo›) hr

/-- Ranges in order of their lower ends, and of their upper ends where those agree. -/
def compare : Ordering := (Ord.compare r.lo s.lo).then (Ord.compare r.hi s.hi)

end CharRange
end TableParsing
