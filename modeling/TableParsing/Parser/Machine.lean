import TableParsing.Lexer.Token
import TableParsing.Table.Parser

/-! # What a parser runs on

The table of a grammar with the actions of its productions and the names of its symbols. -/

namespace TableParsing

/-- A table with actions and names. -/
structure Machine (α : Type) where
  table : ParserTable
  /-- How the reductions make their values, by number. -/
  semantics : List (SemanticAction α)
  terminalNames : List String
  nonTerminalNames : List String
  options : ParserOptions

namespace Machine
variable {α : Type} (machine : Machine α)

/-- The machine for a table of a grammar. -/
def ofGrammar (grammar : Grammar α) (table : ParserTable) (options : ParserOptions) :
    Machine α where
  table := table
  semantics := table.reductions.filterMap fun reduction =>
    grammar.productions[reduction.production]?.map (·.action)
  terminalNames := grammar.terminals.map (·.name)
  nonTerminalNames := grammar.nonTerminals
  options := options

/-- The name of a terminal. -/
def terminalName (t : Nat) : String := machine.terminalNames.getD t "?"

/-- The action in a state in front of a terminal. -/
def action (state terminal : Nat) : Action := machine.table.actions.get state terminal

/-- The error at a token that does not fit. -/
def syntaxError (state : Nat) (token : Token α) : SyntaxError where
  state := state
  found := machine.terminalName token.terminal
  text := token.text
  expected := (machine.table.actions.expected state).map machine.terminalName
  span := token.span

end Machine
end TableParsing
