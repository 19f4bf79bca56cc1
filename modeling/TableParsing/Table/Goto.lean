/-! # Goto tables

A goto table says which state a parser goes on to behind a non-terminal.  Most states that can go on
behind a non-terminal go to the same one, so each column has a **default**, the target that it has most
often, and a row stores cells only from its first to its last target that is not the default of its
column.  A parser never looks up a cell that had no target, so it does no harm that such a cell may read
back as the default. -/

namespace TableParsing

/-- The cells that a row stores: `len` cells from the column `first` on, which begin at the place
`offset`. -/
structure GotoRow where
  first : Nat := 0
  len : Nat := 0
  offset : Nat := 0
deriving DecidableEq, Inhabited, Repr

/-- Targets by state and non-terminal. -/
structure GotoTable where
  defaults : Array (Option Nat)
  rows : Array GotoRow
  values : Array (Option Nat)
deriving DecidableEq, Inhabited, Repr

namespace GotoTable

/-- The number that a list has most often; of several such numbers the smallest. -/
def mostFrequent? (targets : List Nat) : Option Nat :=
  let counts := targets.eraseDups.map fun t => (t, targets.count t)
  let better (a b : Nat × Nat) : Bool := a.2 > b.2 || (a.2 == b.2 && a.1 < b.1)
  match counts with
  | [] => none
  | first :: rest => some (rest.foldl (fun best c => if better c best then c else best) first).1

/-- The default of a column. -/
def defaultOf (rows : List (List (Option Nat))) (column : Nat) : Option Nat :=
  mostFrequent? (rows.filterMap fun row => row[column]?.join)

/-- The columns of a row whose target is not the default. -/
def deviations (defaults : List (Option Nat)) (row : List (Option Nat)) : List Nat :=
  (List.range defaults.length).filter fun column =>
    match row[column]?.join with
    | some target => some target ≠ defaults[column]?.join
    | none => false

/-- The cells that a row has to store, with the column of the first: from its first deviation to its last
one, with the default where it has no target. -/
def stretch (defaults row : List (Option Nat)) : Nat × List (Option Nat) :=
  match (deviations defaults row).head?, (deviations defaults row).getLast? with
  | some first, some last =>
    (first, (List.range' first (last - first + 1)).map fun column =>
      (row[column]?.join).or defaults[column]?.join)
  | _, _ => (0, [])

/-- The stretches of the rows, stored one behind the other from the place `offset` on. -/
def storeAll (defaults : List (Option Nat)) (offset : Nat) :
    List (List (Option Nat)) → List GotoRow × List (Option Nat)
  | [] => ([], [])
  | row :: rows =>
    let (first, cells) := stretch defaults row
    let (stored, values) := storeAll defaults (offset + cells.length) rows
    let here : GotoRow := if cells.isEmpty then {} else ⟨first, cells.length, offset⟩
    (here :: stored, cells ++ values)

/-- The table of the `rows`; a row may end before the last of the `nonTerminals` columns. -/
def ofRows (rows : List (List (Option Nat))) (nonTerminals : Nat) : GotoTable :=
  let defaults := (List.range nonTerminals).map (defaultOf rows)
  let (stored, values) := storeAll defaults 0 rows
  ⟨defaults.toArray, stored.toArray, values.toArray⟩

variable (gotos : GotoTable)

/-- The state behind a non-terminal in a state. -/
def get? (state nonTerminal : Nat) : Option Nat :=
  let row := gotos.rows.getD state {}
  if row.first ≤ nonTerminal ∧ nonTerminal < row.first + row.len then
    (gotos.values[row.offset + nonTerminal - row.first]?).join
  else (gotos.defaults[nonTerminal]?).join

/-- The number of cells that rows store. -/
def storedCells : Nat := gotos.values.size

end GotoTable
end TableParsing
