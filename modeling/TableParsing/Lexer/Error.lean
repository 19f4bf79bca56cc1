import TableParsing.Pattern.Error

/-! # Errors of a lexer -/

namespace TableParsing

/-- Why no lexer can be made from some rules. -/
inductive LexerRulesError where
  /-- The pattern of the rule with this index is malformed. -/
  | invalidPattern (index : Nat) (source : PatternError)
  /-- There are no rules. -/
  | noPatterns
  /-- No terminal stands for the end of the input. -/
  | missingEndOfInput
deriving DecidableEq, Repr

/-- What a user is told. -/
def LexerRulesError.diagnostic : LexerRulesError → Diagnostic
  | invalidPattern index _ =>
    { message := s!"pattern #{index} is invalid", code := "lexer::invalid_pattern" }
  | noPatterns =>
    { message := "no token patterns were registered", code := "lexer::no_patterns" }
  | missingEndOfInput =>
    { message := "no end-of-input token was configured", code := "lexer::missing_end_of_input" }

/-- An input that no pattern matches. -/
structure ScanError where
  /-- The number of the line, from 1 on. -/
  line : Nat
  /-- The number of the character in its line, from 1 on. -/
  column : Nat
  /-- The whole line without its end. -/
  lineText : String
  /-- What was read of the token that could not be finished. -/
  lexeme : String
  /-- The character that does not fit. -/
  span : TextSpan
deriving DecidableEq, Repr

/-- What a user is told. -/
def ScanError.diagnostic (e : ScanError) : Diagnostic where
  message := s!"unexpected input at line {e.line}, column {e.column} after `{e.lexeme}`: {e.lineText}"
  code := "lexer::unexpected_input"
  labels := [⟨"no token matches here", e.span⟩]

end TableParsing
