import TableParsing.Text.Span

/-! # Tokens -/

namespace TableParsing

/-- A piece of the input with the number of its terminal and a value of type `α`. -/
structure Token (α : Type) where
  terminal : Nat
  text : String
  span : TextSpan
  value : α
deriving Inhabited, Repr

/-- The token with its value replaced by what `f` makes of it. -/
def Token.map {α β : Type} (f : α → β) (token : Token α) : Token β where
  terminal := token.terminal
  text := token.text
  span := token.span
  value := f token.value

end TableParsing
