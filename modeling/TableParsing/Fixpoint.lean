/-! # Fixpoints

Repeats a function until it changes nothing.  The number of repetitions is bounded; what a bound has to
be is said where the function is used. -/

namespace TableParsing

/-- Applies `f` until nothing changes, at most the given number of times. -/
def stabilize {α : Type} [DecidableEq α] (f : α → α) : (rounds : Nat) → α → α
  | 0, a => a
  | rounds + 1, a =>
    let next := f a
    if next = a then a else stabilize f rounds next

end TableParsing
