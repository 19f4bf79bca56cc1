import TableParsing.Numbering

/-! # Discovery

Automata are numbered in the order in which a breadth-first search comes across their states.
`discover` is that search for any graph given by the list of successors of a node: nodes get numbers when
they are found, and are visited in the order of their numbers.

The search ends when all nodes found have been visited.  It is told how many visits it may make;
**a number of visits not below the number of reachable nodes is enough**, since no node is visited
twice. -/

namespace TableParsing

variable {α : Type} [DecidableEq α] [Hashable α]

/-- Makes at most `visits` visits, beginning with the node that has the number `i`. -/
def visitFrom (next : α → List α) : (visits i : Nat) → (found : Numbering α) → Numbering α
  | 0, _, found => found
  | visits + 1, i, found =>
    match found.elements[i]? with
    | none => found
    | some a => visitFrom next visits (i + 1) (found.insertAll (next a))

/-- The nodes that can be reached from the `seeds`, numbered in breadth-first order. -/
def discover (next : α → List α) (visits : Nat) (seeds : List α) : Numbering α :=
  visitFrom next visits 0 (.ofList seeds)

end TableParsing
