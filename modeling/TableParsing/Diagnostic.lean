import TableParsing.Text.Span

/-! # Diagnostics

What a user is told about an error, whatever its kind. -/

namespace TableParsing

/-- A remark about a part of the input. -/
structure Label where
  text : String
  span : TextSpan
deriving DecidableEq, Repr

/-- A message with the code of its kind, advice, and the parts of the input that it is about. -/
structure Diagnostic where
  message : String
  code : String
  help : Option String := none
  labels : List Label := []
deriving DecidableEq, Repr

end TableParsing
