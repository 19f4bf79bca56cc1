import TableParsing.Lexer.Options

/-! # Events

Building and running a parser leaves a trail of events, in the order in which things happened.  A
computation that reports events has its result and its trail (`Logged`); nothing depends on the trail. -/

namespace TableParsing

/-- Something that happened while tables were built or a text was read. -/
inductive Event where
  | builtDfa (patterns nfaStates dfaStates : Nat)
  | minimizedDfa (before after : Nat)
  | builtTransitionTable (states columns rawCells storedCells : Nat)
  | compiledLexer (patterns : Nat) (options : LexerOptions)
  | token (terminal : Nat) (lexeme : String)
  | skipped (lexeme : String)
  | builtGrammar (terminals nonTerminals productions : Nat)
  | builtParserTables (states rules actionCells gotoExceptions : Nat) (mergedCores : Bool)
  | compiledParser (states terminals : Nat)
  | shift (state next : Nat) (terminal : String)
  | reduce (state next rule popCount : Nat)
  | accept (state : Nat)
  | recovering (state popped : Nat) (found : String) (errors : Nat)
  | discarded (terminal : Nat) (text : String)
  | collision (state terminal : Nat)
deriving DecidableEq, Repr

/-- The event in words. -/
def Event.message : Event → String
  | builtDfa .. => "built DFA"
  | minimizedDfa .. => "minimized DFA"
  | builtTransitionTable .. => "built transition table"
  | compiledLexer .. => "compiled lexer"
  | token .. => "token"
  | skipped .. => "skipped"
  | builtGrammar .. => "built grammar"
  | builtParserTables .. => "built LR tables"
  | compiledParser .. => "compiled parser"
  | shift .. => "shift"
  | reduce .. => "reduce"
  | accept .. => "accept"
  | recovering .. => "recovering from syntax error"
  | discarded .. => "discarded"
  | collision .. => "action collides with a non-associative error cell"

/-- A result with the events on the way to it. -/
structure Logged (α : Type) where
  value : α
  events : List Event := []

namespace Logged

instance : Monad Logged where
  pure a := ⟨a, []⟩
  bind x f := ⟨(f x.value).value, x.events ++ (f x.value).events⟩

/-- Reports one event. -/
def report (event : Event) : Logged Unit := ⟨(), [event]⟩

end Logged
end TableParsing
