import TableParsing.Grammar.Lexer
import TableParsing.Parser.Driver

/-! # Parsers

A grammar is made into a lexer and a machine, with which texts and other streams of tokens are parsed. -/

namespace TableParsing

variable {α : Type}

/-- The tokens of a list, and then the end of the input. -/
def TokenStream.ofList [Inhabited α] (tokens : List (Except ScanError (Token α))) : TokenStream α :=
  fun n => ⟨tokens.getD n (.ok ⟨endTerminal, "", ⟨0, 0⟩, default⟩), []⟩

/-- The tokens of scans.  The last scan comes to no token; asked again, it gives the same answer without
having to scan. -/
def TokenStream.ofScans [Inhabited α] (scans : Array (Logged (Scan α))) : TokenStream α :=
  fun n =>
    match scans[n]?, scans.back? with
    | some scan, _ => ⟨scan.value.result.toExcept, scan.events⟩
    | none, some last => ⟨last.value.result.toExcept, []⟩
    | none, none => ⟨.ok default, []⟩

/-- The lexer and the machine of a grammar. -/
structure Parser (α : Type) where
  lexer : Lexer α TransitionTable
  machine : Machine α

/-- The parser of a grammar, if its terminals make a lexer and there are no conflicts. -/
def Grammar.toParser [Inhabited α] (grammar : Grammar α) (options : ParserOptions) :
    ExceptT GrammarError Logged (Parser α) := do
  let lexer ← grammar.lexer.adapt GrammarError.lexer
  let table ← grammar.buildTable options
  Logged.report (.compiledParser table.stateCount grammar.terminals.length)
  return ⟨lexer, .ofGrammar grammar table options⟩

namespace Parser
variable [Inhabited α] (parser : Parser α)

/-- Parses the tokens of a stream. -/
def parseTokens (stream : TokenStream α) : Logged (Option (Except ParseError α)) :=
  parser.machine.drive stream Machine.stepLimit

/-- Parses a text. -/
def parse (text : String) : Logged (Option (Except ParseError α)) :=
  parser.parseTokens (.ofScans (parser.lexer.scans text).toArray)

end Parser
end TableParsing
