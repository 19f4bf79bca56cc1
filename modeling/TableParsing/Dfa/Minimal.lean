import TableParsing.Dfa.Basic
import TableParsing.Fixpoint
import TableParsing.Numbering
import TableParsing.Nfa.Simulation

/-! # Minimisation

States that no text tells apart are merged.  States are put into **blocks**, at first by their verdicts.
Each round splits the blocks by the blocks that their states lead to, elementary range by elementary range,
until a round splits nothing.  A block is numbered by the first of its states, so the start keeps
the number 0 and a round that splits nothing changes no number; and since every other round adds a block,
there are no more rounds than states. -/

namespace TableParsing

/-- The numbers that the elements of a list get when equal elements get equal numbers and new numbers
are given out in ascending order. -/
def numberEqual {β : Type} [DecidableEq β] [Hashable β] (xs : List β) : List Nat :=
  xs.map (Numbering.ofList xs).numberOf

/-- The number of blocks in such a numbering. -/
def blockCount (blocks : List Nat) : Nat :=
  match blocks.max? with
  | none => 0
  | some last => last + 1

/-- What tells two states apart in a round: the block of a state, and the columns that lead on from it with
the blocks that they lead to. -/
structure Signature where
  block : Nat
  moves : List (Nat × Nat)
deriving DecidableEq, Hashable

namespace Dfa
variable (dfa : Dfa)

/-- For each state the elementary ranges that lead on from it, by number, with the states that they lead
to. -/
def moveRows : List (List (Nat × Nat)) :=
  let firsts := dfa.columns.ranges.map CharRange.lo
  dfa.states.toList.map fun state =>
    (state.targets firsts).zipIdx.filterMap fun (target, column) => target.map (column, ·)

/-- The blocks split by the blocks that `rows` leads to. -/
def refineBlocks (rows : List (List (Nat × Nat))) (blocks : List Nat) : List Nat :=
  let table := blocks.toArray
  let blockOf (s : Nat) : Nat := table.getD s 0
  let signature (block : Nat) (row : List (Nat × Nat)) : Signature :=
    ⟨block, row.map fun (column, target) => (column, blockOf target)⟩
  numberEqual (List.zipWith signature blocks rows)

/-- The block of each state when states that no text tells apart share one. -/
def blocks : List Nat :=
  stabilize (refineBlocks dfa.moveRows) dfa.stateCount
    (numberEqual (dfa.states.toList.map fun state => state.verdict))

/-- The state for one block: its first member gives the edges, which lead to blocks now, and all
members together are what it stands for. -/
def mergeBlock (blockOf : Nat → Nat) (group : List Dfa.State) : Dfa.State :=
  match group with
  | [] => default
  | first :: rest =>
    let members := rest.foldl (fun members state => ascending (members ++ state.members))
      first.members
    let ranges := first.edges.flatMap fun (label, target) => label.ranges.map (·, blockOf target)
    ranges.foldl (fun state (r, target) => state.addEdge r target)
      (.isolated members first.verdict)

/-- The states of each block, block by block. -/
def groups (blocks : List Nat) : List (List Dfa.State) :=
  let pairs := blocks.zip dfa.states.toList
  (List.range (blockCount blocks)).map fun block => (pairs.filter (·.1 = block)).map Prod.snd

/-- The automaton with the states of each block merged. -/
def minimize : Dfa :=
  if dfa.stateCount ≤ 1 then dfa
  else
    let blocks := dfa.blocks
    let table := blocks.toArray
    { states := ((dfa.groups blocks).map (mergeBlock fun s => table.getD s 0)).toArray }

/-! ## Edges that lead nowhere

States that were not made by the subset construction may have an edge to a state that does not exist, and
an edge may be **hidden**: no look-up finds it, since an earlier one has its characters.  Minimisation
follows what the look-ups of all states find, and all edges of the first state of each block.  A hidden edge
of another state is dropped with that state, wherever it leads. -/

/-- Whether the look-ups of all states find only states of the automaton. -/
def movesExist : Bool :=
  dfa.moveRows.all fun row => row.all fun (_, target) => target < dfa.stateCount

/-- Whether all edges of a state lead to states of the automaton. -/
def edgesExist (state : Dfa.State) : Bool :=
  state.edges.all fun (_, target) => target < dfa.stateCount

/-- Whether all edges that minimisation follows lead to states of the automaton. -/
def canMerge : Bool :=
  dfa.movesExist && (dfa.groups dfa.blocks).all fun group => group.head?.all dfa.edgesExist

/-- The minimal automaton of states that were not made by the subset construction; there is none if an
edge that is followed leads nowhere, unless there is nothing to merge. -/
def minimize? : Option Dfa :=
  if dfa.stateCount ≤ 1 ∨ dfa.canMerge then some dfa.minimize else none

end Dfa
end TableParsing
