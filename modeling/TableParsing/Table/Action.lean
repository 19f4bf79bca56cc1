import TableParsing.Table.Packed

/-! # Actions -/

namespace TableParsing

/-- What a parser does in a state in front of a terminal. -/
inductive Action where
  /-- Take the terminal and go on to a state. -/
  | shift (next : Nat)
  /-- Apply the reduction rule with this number. -/
  | reduce (rule : Nat)
  /-- Everything has been parsed. -/
  | accept
  /-- The terminal does not fit. -/
  | error
deriving DecidableEq, Inhabited, Repr

/-- Actions by state and terminal, in a packed table. -/
structure ActionTable where
  table : PackedTable Action
deriving DecidableEq, Inhabited, Repr

namespace ActionTable

/-- The table of the `rows`, which have a cell for each terminal. -/
def ofRows (rows : List (List Action)) (terminals : Nat) : ActionTable := ⟨.pack rows terminals⟩

variable (actions : ActionTable)

/-- The action in a state in front of a terminal; outside the table it is an error. -/
def get (state terminal : Nat) : Action := (actions.table.get? state terminal).getD .error

/-- The number of states. -/
def stateCount : Nat := actions.table.rowCount

/-- The number of terminals. -/
def terminalCount : Nat := actions.table.width

/-- The number of cells that are stored. -/
def storedCells : Nat := actions.table.size

/-- The terminals that a state has an action for, in ascending order. -/
def expected (state : Nat) : List Nat :=
  (List.range actions.terminalCount).filter fun t => actions.get state t ≠ .error

end ActionTable
end TableParsing
