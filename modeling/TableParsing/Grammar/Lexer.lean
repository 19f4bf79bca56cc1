import TableParsing.Grammar.Basic
import TableParsing.Lexer.Rules

/-! # The lexer of a grammar

Literal terminals come first, so that a word with a terminal of its own is never taken for a text that
matches a pattern.  The value of their tokens says nothing. -/

namespace TableParsing
namespace Grammar
variable {α : Type} [Inhabited α] (grammar : Grammar α)

/-- The rules for the literal terminals. -/
def literalRules : List (LexerRule α) :=
  grammar.terminals.zipIdx.filterMap fun (terminal, t) =>
    match terminal.kind with
    | .literal text => some ⟨escapeLiteral text, some ⟨t, fun _ => default⟩⟩
    | _ => none

/-- The rules for the terminals with a pattern. -/
def patternRules : List (LexerRule α) :=
  grammar.terminals.zipIdx.filterMap fun (terminal, t) =>
    match terminal.kind with
    | .pattern regex value => some ⟨regex, some ⟨t, value⟩⟩
    | _ => none

/-- The rules for the grammar's tokens. -/
def lexerRules : LexerRules α where
  rules := grammar.literalRules ++ grammar.patternRules ++ grammar.ignored.map fun regex => ⟨regex, none⟩
  endOfInput := some (TableParsing.endTerminal, default)
  options := grammar.lexerOptions

/-- The lexer for the grammar's tokens.  A grammar without such terminals has a lexer that takes the empty
input alone. -/
def lexer : ExceptT LexerRulesError Logged (Lexer α TransitionTable) := grammar.lexerRules.compile

end Grammar
end TableParsing
