import TableParsing.Lexer.Verdict
import TableParsing.Nfa.Simulation

/-! # Ranked automata

Several patterns are matched at once by their merged automaton.  When more than one of them matches the
same text, **the lowest slot wins**.  Slots go to the token patterns in the order of registration, and
after them to the patterns to be ignored, so that a token is never lost to an ignored pattern. -/

namespace TableParsing

/-- Patterns in the order of registration, each with its verdict. -/
abbrev PatternList := List (Nfa × Verdict)

/-- A merged automaton with the verdict of each slot. -/
structure RankedNfa where
  nfa : Nfa
  slotVerdicts : List Verdict
deriving DecidableEq

namespace RankedNfa

/-- The token patterns in front of the ignored ones. -/
def rank (patterns : PatternList) : PatternList :=
  patterns.filter (·.2 ≠ .ignore) ++ patterns.filter (·.2 = .ignore)

/-- The merged automaton of some patterns. -/
def ofPatterns (patterns : PatternList) : RankedNfa where
  nfa := .merge ((rank patterns).map Prod.fst)
  slotVerdicts := (rank patterns).map Prod.snd

/-- The verdict of the lowest slot in a set of states. -/
def verdict (ranked : RankedNfa) (set : List Nat) : Verdict :=
  match (ranked.nfa.slots set).min? with
  | some slot => ranked.slotVerdicts.getD slot .reject
  | none => .reject

end RankedNfa
end TableParsing
