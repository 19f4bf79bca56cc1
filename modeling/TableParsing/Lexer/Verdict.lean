/-! # What a scanner does with a match -/

namespace TableParsing

/-- What a scanner does when it stops in a state. -/
inductive Verdict where
  /-- The state does not accept, so the input is faulty. -/
  | reject
  /-- What was matched is left out, and scanning begins anew behind it. -/
  | ignore
  /-- What was matched is a token of the pattern with this number. -/
  | token (pattern : Nat)
deriving DecidableEq, Hashable, Inhabited, Repr

/-- Whether the scanner may stop. -/
def Verdict.isAccepting (verdict : Verdict) : Bool := verdict ≠ .reject

end TableParsing
