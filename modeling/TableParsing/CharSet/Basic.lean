import TableParsing.CharSet.Range

/-! # Sets of characters

A `CharSet` labels the edges of automata.  It is a list of ranges in ascending order of which no two
overlap.  **Two ranges of a set may touch**: a set that was cut into pieces (`CharSet/Elementary`)
remembers the cuts, and only `insert` and `union` join neighbours again.  A set that was never cut has
exactly one list for its characters.

The character NUL stands for the end of an input when patterns are scanned, so the set `any`, and
with it every complement, leaves it out. -/

namespace TableParsing

namespace CharRange
variable (r : CharRange)

/-- The part of the range in front of `c`. -/
def below? (c : Char) : Option CharRange :=
  (predChar? c).bind fun last => ofBounds? r.lo last

/-- The part of the range behind `c`. -/
def above? (c : Char) : Option CharRange :=
  c.succ?.bind fun first => ofBounds? first r.hi

/-- The parts of the range that none of the `holes` covers; the holes are in ascending order.  A
hole inside the range leaves a part on either side, and only the later one can meet further holes. -/
def minus (r : CharRange) (holes : List CharRange) : List CharRange :=
  match holes with
  | [] => [r]
  | hole :: holes =>
    if hole.overlaps r then
      (r.below? hole.lo).toList ++
        match r.above? hole.hi with
        | some rest => rest.minus holes
        | none => []
    else r.minus holes

end CharRange

/-- Ranges in ascending order, no two of them overlapping. -/
structure CharSet where
  ranges : List CharRange
deriving DecidableEq

namespace CharSet

/-- The set without characters. -/
def empty : CharSet := ⟨[]⟩

instance : Inhabited CharSet := ⟨empty⟩

variable (set other : CharSet)

/-- Whether the set has no character. -/
def isEmpty : Bool := set.ranges.isEmpty

/-- The position of the range that holds `c`. -/
def indexOf? (c : Char) : Option Nat := set.ranges.findIdx? (·.contains c)

/-- Whether `c` belongs to the set. -/
def contains (c : Char) : Bool := (set.indexOf? c).isSome

/-! ## Insertion

A range is inserted where it belongs.  The ranges that it `joins` are melted into it one after the
other, each making it longer. -/

/-- The list with `r` at its place, after `r` took up all ranges that it joins. -/
def place (joins : CharRange → CharRange → Bool) (r : CharRange) :
    List CharRange → List CharRange
  | [] => [r]
  | s :: rest =>
    if joins s r then place joins (s.hull r) rest
    else if s.hi < r.lo then s :: place joins r rest
    else r :: s :: rest

/-- The set with all characters of `r`; ranges that touch `r` become one with it. -/
def insert (r : CharRange) : CharSet := ⟨place CharRange.touches r set.ranges⟩

/-- The set with all characters of `r`; neighbours of `r` stay ranges of their own. -/
def insertApart (r : CharRange) : CharSet := ⟨place CharRange.overlaps r set.ranges⟩

/-- The set with `c`. -/
def insertChar (c : Char) : CharSet := set.insert (CharRange.single c)

/-- The characters of either set. -/
def union : CharSet := other.ranges.foldl insert set

/-! ## Named sets -/

/-- The set of one character. -/
def single (c : Char) : CharSet := empty.insertChar c

/-- The characters between two, in either order. -/
def between (a b : Char) : CharSet := empty.insert (CharRange.between a b)

/-- The set of the characters of a list. -/
def ofList (cs : List Char) : CharSet := cs.foldl insertChar empty

/-- Every character but NUL. -/
def any : CharSet := between '\x01' (Char.ofNat 0x10FFFF)

/-- The ASCII digits. -/
def digit : CharSet := between '0' '9'

/-- The blank and the five controls from the tabulator to the carriage return. -/
def space : CharSet := (between '\t' '\r').insertChar ' '

/-- The ASCII letters and digits and the underscore. -/
def word : CharSet :=
  (((between 'a' 'z').insert (.between 'A' 'Z')).insert (.between '0' '9')).insertChar '_'

/-! ## Difference, complement and comparison -/

/-- The characters of the set that are not in `other`. -/
def diff : CharSet := ⟨set.ranges.flatMap (·.minus other.ranges)⟩

/-- All characters but NUL and those of the set. -/
def complement : CharSet := any.diff set

/-- Whether two lists of ranges share a character.  Of two ranges that do not overlap the one that
ends first can meet nothing further on, so it is left behind. -/
def meet : List CharRange → List CharRange → Bool
  | r :: rs, s :: ss =>
    if r.overlaps s then true
    else if r.hi < s.hi then meet rs (s :: ss)
    else meet (r :: rs) ss
  | [], _ => false
  | _ :: _, [] => false
termination_by rs ss => rs.length + ss.length

/-- Whether some character is in both sets. -/
def intersects : Bool := meet set.ranges other.ranges

/-- Whether every character of `other` is in the set. -/
def covers : Bool := (other.diff set).isEmpty

/-- Sets in the dictionary order of their ranges. -/
def compare : Ordering := List.compareLex CharRange.compare set.ranges other.ranges

end CharSet
end TableParsing
