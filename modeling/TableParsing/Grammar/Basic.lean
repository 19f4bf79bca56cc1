import TableParsing.Grammar.Symbol
import TableParsing.Lexer.Options
import TableParsing.Parser.Error

/-! # Grammars

A `Grammar` says how tokens make up a text and how a value is made from the values of its parts.  It names
its symbols by numbers; two terminals are there in every grammar, the end of the input and the error
terminal, which is shifted in the place of a faulty piece of input. -/

namespace TableParsing

/-- Where the tokens of a terminal come from. -/
inductive TerminalKind (α : Type) where
  /-- They are made by the parser. -/
  | reserved
  /-- They have exactly this text. -/
  | literal (text : String)
  /-- Their texts match a pattern, and give the value. -/
  | pattern (regex : String) (value : String → α)

/-- A terminal. -/
structure Terminal (α : Type) where
  name : String
  kind : TerminalKind α
  precedence : Option Precedence := none

/-- How a production makes a value. -/
inductive SemanticAction (α : Type) where
  /-- From the values of its symbols. -/
  | ofValues (f : List α → α)
  /-- From a syntax error and the values of its symbols. -/
  | ofError (f : SyntaxError → List α → α)

/-- A production with its action. -/
structure Production (α : Type) where
  result : Nat
  symbols : List Symbol
  action : SemanticAction α
  precedence : Option Precedence := none

/-- A grammar whose values are of type `α`. -/
structure Grammar (α : Type) where
  terminals : List (Terminal α)
  /-- The names of the non-terminals. -/
  nonTerminals : List String
  productions : List (Production α)
  start : Nat
  /-- The patterns that the lexer ignores. -/
  ignored : List String
  lexerOptions : LexerOptions

namespace Grammar
variable {α : Type} (grammar : Grammar α)

/-- The grammar without names, actions and precedence. -/
def cfg : Cfg where
  terminalCount := grammar.terminals.length
  nonTerminalCount := grammar.nonTerminals.length
  rules := (grammar.productions.map fun p => ⟨p.result, p.symbols⟩).toArray
  start := grammar.start

/-- The number of a symbol when non-terminals are numbered behind the terminals. -/
def symbolNumber : Symbol → Nat
  | .terminal t => t
  | .nonTerminal n => grammar.terminals.length + n

/-- The name of a terminal. -/
def terminalName (t : Nat) : String := (grammar.terminals[t]?.map (·.name)).getD "?"

/-- The name of a non-terminal. -/
def nonTerminalName (n : Nat) : String := grammar.nonTerminals.getD n "?"

/-- The name of a symbol. -/
def symbolName : Symbol → String
  | .terminal t => grammar.terminalName t
  | .nonTerminal n => grammar.nonTerminalName n

/-- A production as its result, an arrow, and its symbols or a sign for none. -/
def renderProduction (p : Nat) : String :=
  match grammar.productions[p]? with
  | none => ""
  | some production =>
    let symbols := if production.symbols.isEmpty then ["ε"]
      else production.symbols.map grammar.symbolName
    " ".intercalate (grammar.nonTerminalName production.result :: "->" :: symbols)

/-- The numbers of a non-terminal's productions. -/
def productionsOf (n : Nat) : List Nat :=
  (List.range grammar.productions.length).filter fun p =>
    (grammar.productions[p]?).any (·.result = n)

end Grammar
end TableParsing
