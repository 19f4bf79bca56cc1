/-! # Bisection

Finds the end of the front part of a list whose elements pass a test, by halving the part that is still
in question.  If the elements that pass stand in front of all others, the answer is their number. -/

namespace TableParsing

/-- The last position that bisection looks at: `size` positions from `base` on are in question, and the
upper half is kept if its first position passes. -/
def narrow (passes : Nat → Bool) (base size : Nat) : Nat :=
  if size ≤ 1 then base
  else
    let half := size / 2
    narrow passes (if passes (base + half) then base + half else base) (size - half)
termination_by size

/-- The number of elements at the front of `xs` that pass the test. -/
def bisect {α : Type} (passes : α → Bool) (xs : Array α) : Nat :=
  if xs.isEmpty then 0
  else
    let test (i : Nat) : Bool := xs[i]?.any passes
    let i := narrow test 0 xs.size
    if test i then i + 1 else i

end TableParsing
