import TableParsing.Event
import TableParsing.Table.Action
import TableParsing.Lr.Conflict
import TableParsing.Table.Goto
import TableParsing.Parser.Options

/-! # Parser tables

The rows of the action table are the cells of the states, and those of the goto table their transitions on
non-terminals.  Reductions are numbered in the order in which complete items come up, state by state, so
the tables know only the productions that are reduced somewhere. -/

namespace TableParsing

/-- What a reduction takes off the stack and puts there instead. -/
structure Reduction where
  production : Nat
  result : Nat
  /-- The number of symbols taken off. -/
  popCount : Nat
deriving DecidableEq, Inhabited, Repr

/-- The tables of a parser. -/
structure ParserTable where
  actions : ActionTable
  gotos : GotoTable
  /-- The reductions by number. -/
  reductions : List Reduction
  stateCount : Nat
deriving DecidableEq, Inhabited, Repr

namespace Cfg
variable (cfg : Cfg)

/-- The productions with a result that are complete in a state. -/
def completed (state : Collection.State) : List Nat :=
  (state.items.items.filter fun item =>
    cfg.isComplete item.core && (cfg.resultOf? item.core.production).isSome).map (·.core.production)

/-- The productions that are complete somewhere, numbered in the order in which they come up. -/
def reductions (states : List Collection.State) : Numbering Nat := .ofList (states.flatMap cfg.completed)

/-- The reduction of a production. -/
def reductionOf (production : Nat) : Reduction :=
  ⟨production, (cfg.resultOf? production).getD 0, (cfg.symbolsOf production).length⟩

/-- The action for a cell. -/
def actionOf (reductions : Numbering Nat) : Cell → Action
  | .demand (.shift target) => .shift target
  | .demand (.reduce production) => .reduce (reductions.numberOf production)
  | .demand .accept => .accept
  | .empty | .blocked _ => .error

/-- The states that the non-terminals lead to. -/
def gotoRow (state : Collection.State) : List (Option Nat) :=
  (List.range cfg.nonTerminalCount).map fun n => state.transitions.lookup (.nonTerminal n)

end Cfg

namespace Grammar
variable {α : Type} (grammar : Grammar α)

/-- The tables for the states of the grammar's automaton. -/
def tableOf (states : List Collection.State) : Except Conflict ParserTable := do
  let cfg := grammar.cfg
  let rows ← states.zipIdx.mapM fun (state, index) => grammar.fillRow index state
  let reductions := cfg.reductions states
  return {
    actions := .ofRows (rows.map fun row => row.map (Cfg.actionOf reductions)) cfg.terminalCount
    gotos := .ofRows (states.map cfg.gotoRow) cfg.nonTerminalCount
    reductions := reductions.toList.map cfg.reductionOf
    stateCount := states.length }

/-- The tables of the grammar, or the first conflict. -/
def table (mergeCores : Bool) : Except Conflict ParserTable :=
  grammar.tableOf (grammar.cfg.collection mergeCores)

/-- The tables of the grammar, with a report of what was built or went wrong. -/
def buildTable (options : ParserOptions) : ExceptT GrammarError Logged ParserTable := do
  match grammar.table options.mergeCores with
  | .ok table =>
    Logged.report (.builtParserTables table.stateCount table.reductions.length table.actions.storedCells
      table.gotos.storedCells options.mergeCores)
    return table
  | .error conflict =>
    if let .reduceReduce state terminal _ _ true := conflict then
      Logged.report (.collision state terminal)
    throw (grammar.conflictError conflict)

end Grammar
end TableParsing
