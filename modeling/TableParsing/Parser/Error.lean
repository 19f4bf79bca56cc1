import TableParsing.Lexer.Error

/-! # Errors of a parser -/

namespace TableParsing

/-- A token that does not fit where it stands. -/
structure SyntaxError where
  /-- The state of the parser. -/
  state : Nat
  /-- The name of the token's terminal. -/
  found : String
  /-- The text of the token. -/
  text : String
  /-- The names of the terminals that would have fitted. -/
  expected : List String
  span : TextSpan
deriving DecidableEq, Inhabited, Repr

/-- What a user is told. -/
def SyntaxError.diagnostic (e : SyntaxError) : Diagnostic where
  message :=
    let names := if e.expected.isEmpty then "<nothing>" else ", ".intercalate e.expected
    s!"unexpected `{e.found}` in state {e.state}, expected one of: {names}"
  code := "parser::unexpected_token"
  labels := [⟨"unexpected token", e.span⟩]

/-- Why a parse came to nothing. -/
inductive ParseError where
  /-- A token did not fit. -/
  | syntaxError (error : SyntaxError)
  /-- The input could not be split into tokens. -/
  | lexer (error : ScanError)
  /-- The grammar has no terminal with this number. -/
  | unknownToken (terminal : Nat)
  /-- The tables know no state behind a non-terminal. -/
  | missingGoto (state : Nat) (symbol : String)
deriving DecidableEq, Repr

/-- What a user is told. -/
def ParseError.diagnostic : ParseError → Diagnostic
  | syntaxError error => error.diagnostic
  | lexer error => error.diagnostic
  | unknownToken terminal =>
    { message := s!"token number {terminal} is not a terminal of this grammar"
      code := "parser::unknown_token" }
  | missingGoto state symbol =>
    { message := s!"parse table has no goto from state {state} on `{symbol}`"
      code := "parser::missing_goto" }

/-- The error at a token, if it is one. -/
def ParseError.syntaxError? : ParseError → Option SyntaxError
  | syntaxError error => some error
  | _ => none

end TableParsing
