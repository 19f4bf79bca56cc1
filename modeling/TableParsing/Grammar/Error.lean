import TableParsing.Lexer.Error

/-! # Errors of a grammar -/

namespace TableParsing

/-- A kind of symbol. -/
inductive SymbolKind where
  | terminal
  | nonTerminal
deriving DecidableEq, Repr

/-- The kind in words. -/
def SymbolKind.render : SymbolKind → String
  | terminal => "terminal"
  | nonTerminal => "non-terminal"

/-- A place where a grammar names a symbol. -/
inductive SymbolPlace where
  | start
  | production (index : Nat)
deriving DecidableEq, Repr

/-- The place in words. -/
def SymbolPlace.render : SymbolPlace → String
  | start => "start symbol"
  | production index => s!"production {index}"

/-- Why no parser can be made from a grammar. -/
inductive GrammarError where
  /-- A state could shift a terminal or reduce a production in front of it, and precedence does not
  decide. -/
  | shiftReduce (state : Nat) (shiftSymbol reduceSymbol production : String)
  /-- Two things could be done in front of a terminal, and precedence cannot decide. -/
  | reduceReduce (state : Nat) (lookahead first second : String)
  /-- A non-terminal has no productions. -/
  | noProductions (nonTerminal : String)
  /-- No start symbol was named. -/
  | missingStart
  /-- A symbol is not there. -/
  | unknownSymbol (kind : SymbolKind) (index : Nat) (place : SymbolPlace)
  /-- The terminals make no lexer. -/
  | lexer (error : LexerRulesError)
deriving DecidableEq, Repr

/-- What a user is told. -/
def GrammarError.diagnostic : GrammarError → Diagnostic
  | shiftReduce state shiftSymbol reduceSymbol production =>
    { message := s!"shift/reduce conflict in state {state}: shift `{shiftSymbol}`" ++
        s!" or reduce `{production}` to `{reduceSymbol}`"
      code := "grammar::shift_reduce"
      help := some s!"declare a precedence group for `{shiftSymbol}` or rewrite the grammar" }
  | reduceReduce state lookahead first second =>
    { message := s!"reduce/reduce conflict in state {state} on `{lookahead}`:" ++
        s!" `{first}` and `{second}` both apply"
      code := "grammar::reduce_reduce" }
  | noProductions nonTerminal =>
    { message := s!"non-terminal `{nonTerminal}` has no productions"
      code := "grammar::no_productions" }
  | missingStart =>
    { message := "grammar declares no start symbol", code := "grammar::missing_start" }
  | unknownSymbol kind index place =>
    { message := s!"{kind.render} #{index} used in {place.render} was not declared by this builder"
      code := "grammar::unknown_symbol"
      help := some "symbol handles are only valid in the builder that created them" }
  | lexer error => error.diagnostic

end TableParsing
