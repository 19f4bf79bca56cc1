import TableParsing.Dfa.Basic
import TableParsing.Table.Packed

/-! # Transition tables

A `TransitionTable` is a deterministic automaton as a table with a row for each state and a column for
each elementary range of the labels.  The next state is found by looking up the column of a character;
a character in no column is on no edge. -/

namespace TableParsing

/-- The cells of a transition table: one array a row, or packed. -/
inductive TransitionCells where
  | rows (rows : Array (Array (Option Nat)))
  | packed (table : PackedTable (Option Nat))
deriving DecidableEq

/-- The edges and verdicts of an automaton in tables. -/
structure TransitionTable where
  columns : CharSet
  cells : TransitionCells
  verdicts : Array Verdict
deriving DecidableEq

namespace TransitionTable

/-- The table of an automaton, packed if `compress` is set. -/
def ofDfa (dfa : Dfa) (compress : Bool) : TransitionTable :=
  let columns := dfa.columns
  let firsts := columns.ranges.map CharRange.lo
  let rows := dfa.states.toList.map fun state => state.targets firsts
  { columns := columns
    cells := if compress then .packed (.pack rows firsts.length)
      else .rows (rows.map List.toArray).toArray
    verdicts := dfa.states.map (·.verdict) }

variable (table : TransitionTable)

/-- The number of states. -/
def stateCount : Nat := table.verdicts.size

/-- The number of columns. -/
def columnCount : Nat := table.columns.ranges.length

/-- Whether the cells are packed. -/
def isPacked : Bool :=
  match table.cells with
  | .rows _ => false
  | .packed _ => true

/-- The number of cells that are stored. -/
def storedCells : Nat :=
  match table.cells with
  | .rows rows => rows.foldr (fun row stored => row.size + stored) 0
  | .packed packed => packed.size

/-- The state in a cell; there is none in an empty cell and outside the table. -/
def cell (s column : Nat) : Option Nat :=
  match table.cells with
  | .rows rows => (rows[s]?.bind (·[column]?)).join
  | .packed packed => (packed.get? s column).join

/-- The state that reading `c` leads to from `s`. -/
def next (s : Nat) (c : Char) : Option Nat :=
  (table.columns.indexOf? c).bind (table.cell s)

/-- The verdict of a state; a number that no state has is rejected. -/
def verdict (s : Nat) : Verdict := table.verdicts.getD s .reject

end TransitionTable
end TableParsing
