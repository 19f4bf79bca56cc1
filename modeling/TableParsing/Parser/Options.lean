/-! # How a parser is built and how it treats errors -/

namespace TableParsing

/-- The choices for a parser. -/
structure ParserOptions where
  /-- Whether a syntax error starts a recovery, where the grammar provides for one. -/
  errorRecovery : Bool := true
  /-- The number of recoveries after which the next syntax error ends the parse. -/
  maxErrors : Nat := 100
  /-- Whether states with the same cores are merged. -/
  mergeCores : Bool := true
deriving DecidableEq, Inhabited, Repr

/-- The usual choices with every state of the canonical collection kept apart. -/
def ParserOptions.canonical : ParserOptions where
  mergeCores := false

end TableParsing
