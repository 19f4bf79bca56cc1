/-! # How a scanner is built -/

namespace TableParsing

/-- What is done to the automaton of a scanner before it runs.  Neither choice changes the tokens. -/
structure LexerOptions where
  /-- Merge the states that no input tells apart. -/
  minimize : Bool := true
  /-- Store the rows of the transition table on top of one another. -/
  compress : Bool := true
deriving DecidableEq, Inhabited, Repr

end TableParsing
