import TableParsing.Diagnostic

/-! # Faults of a pattern

A `PatternCause` says what is wrong with a pattern, and a `PatternError` where.  Positions count the
characters of the pattern. -/

namespace TableParsing

/-- The largest count that a repetition may ask for. -/
def repeatLimit : Nat := 1000

/-- What is wrong with the braces of a repetition. -/
inductive RepeatFault where
  /-- No count follows the opening brace. -/
  | missingCount
  /-- Something other than a closing brace follows the second count. -/
  | missingBrace
  /-- Neither a separator nor a closing brace follows the first count. -/
  | missingSeparator
  /-- The repetition allows no copy. -/
  | notPositive
  /-- A count is above `repeatLimit`. -/
  | tooLarge
deriving DecidableEq, Repr

/-- What is wrong with a pattern. -/
inductive PatternCause where
  /-- A bracket is not closed. -/
  | unterminatedClass
  /-- A bracket holds no character. -/
  | emptyClass
  /-- A range inside a bracket ends before it begins. -/
  | invertedRange (lo hi : Char)
  /-- A letter or digit behind a backslash has no meaning. -/
  | badEscape (c : Char)
  /-- The pattern ends behind a backslash. -/
  | danglingEscape
  /-- A parenthesis has no partner. -/
  | unbalancedParenthesis
  /-- The braces of a repetition are malformed. -/
  | badRepeat (fault : RepeatFault)
  /-- An operator has too few operands. -/
  | missingOperand
  /-- There is nothing to match. -/
  | emptyPattern
deriving DecidableEq, Repr

/-- A fault of a pattern at a position. -/
structure PatternError where
  pattern : String
  position : Nat
  cause : PatternCause
deriving DecidableEq, Repr

/-- The fault in words. -/
def RepeatFault.message : RepeatFault → String
  | missingCount => "expected a count after `\x7b`"
  | missingBrace => "expected `\x7d`"
  | missingSeparator => "expected `\x7d`, `,` or `:`"
  | notPositive => "count must be positive"
  | tooLarge => s!"count exceeds {repeatLimit}"

/-- The fault in words. -/
def PatternCause.message : PatternCause → String
  | unterminatedClass => "unterminated character class"
  | emptyClass => "character class matches nothing"
  | invertedRange lo hi => s!"character range `{lo}-{hi}` is out of order"
  | badEscape c => s!"unknown escape `\\{c}`"
  | danglingEscape => "pattern ends with a lone `\\`"
  | unbalancedParenthesis => "unbalanced parenthesis"
  | badRepeat fault => "malformed counted repetition: " ++ fault.message
  | missingOperand => "operator is missing an operand"
  | emptyPattern => "pattern is empty"

/-- The fault in words, with the pattern and the position. -/
def PatternError.message (e : PatternError) : String :=
  s!"invalid pattern `{e.pattern}` at offset {e.position}: " ++ e.cause.message

/-- What a user is told. -/
def PatternError.diagnostic (e : PatternError) : Diagnostic where
  message := e.message
  code := "regex::syntax"

end TableParsing
