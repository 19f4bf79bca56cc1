import TableParsing.CharSet.Basic

/-! # Elementary ranges

To branch on a character an automaton needs ranges that do not tell its characters apart: each label
holds all of such a range or nothing of it.  `CharSet.elementary` finds them for a family of labels.
It cuts the ranges found so far and each further label at one another's ends (`align`), after which
two ranges are equal or share nothing, and takes over the pieces that are new. -/

namespace TableParsing

namespace CharSet

/-- The pieces of the ranges when each is cut in front of each of the `cuts`.  Ranges and cuts ascend, so a
cut at or in front of the first character of a range does nothing to the ranges from there on, and a cut
behind its last character leaves it whole. -/
def cutRanges : List CharRange → List Char → List CharRange
  | [], _ => []
  | r :: ranges, [] => r :: ranges
  | r :: ranges, c :: cuts =>
    if c ≤ r.lo then cutRanges (r :: ranges) cuts
    else
      match r.below? c, CharRange.ofBounds? c r.hi with
      | some front, some back => front :: cutRanges (back :: ranges) cuts
      | _, _ => r :: cutRanges ranges (c :: cuts)
termination_by ranges cuts => ranges.length + cuts.length

variable (set other : CharSet)

/-- The set with its ranges cut in front of each of the `cuts`, which ascend. -/
def cutAt (cuts : List Char) : CharSet := ⟨cutRanges set.ranges cuts⟩

/-- The places where a range of the set begins, and those just behind the end of one. -/
def boundaries : List Char :=
  set.ranges.flatMap fun r => r.lo :: r.hi.succ?.toList

/-- Both sets, cut at the boundaries of either. -/
def align : CharSet × CharSet :=
  let cuts := ((set.boundaries ++ other.boundaries).mergeSort (· ≤ ·)).eraseReps
  (set.cutAt cuts, other.cutAt cuts)

/-- The elementary ranges `columns` of some labels, made elementary for one more label. -/
def refine (columns label : CharSet) : CharSet :=
  let (columns, pieces) := columns.align label
  pieces.ranges.foldl (fun columns r =>
    if (columns.indexOf? r.lo).isNone then columns.insertApart r else columns) columns

/-- The elementary ranges of a family of labels. -/
def elementary (labels : List CharSet) : CharSet := labels.foldl refine empty

end CharSet
end TableParsing
