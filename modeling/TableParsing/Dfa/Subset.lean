import TableParsing.Dfa.Basic
import TableParsing.Nfa.Ranked

/-! # The subset construction

A deterministic automaton can follow a simulation: its states are the sets of states that the simulation
comes through.

* The **start** is the set before anything has been read.
* Out of a set, all characters of an elementary range of its labels lead to the same set, so the **moves**
  of a set are found by reading the first character of each range.
* The sets are found and numbered by `discover`.  Of `n` states there are no more than `2 ^ n` sets. -/

namespace TableParsing

namespace Nfa
variable (nfa : Nfa)

/-- The labels on the edges out of the states of a set. -/
def labelsFrom (set : List Nat) : List CharSet :=
  (set.flatMap nfa.outgoing).filterMap (·.label)

/-- The elementary ranges that lead on from a set, with the sets that they lead to. -/
def moves (set : List Nat) : List (CharRange × List Nat) :=
  (CharSet.elementary (nfa.labelsFrom set)).ranges.filterMap fun r =>
    let target := nfa.step set r.lo
    if target.isEmpty then none else some (r, target)

/-- All sets that a simulation comes through, numbered in the order in which they are found. -/
def reachableSets : Numbering (List Nat) :=
  discover (fun set => (nfa.moves set).map Prod.snd) (Nat.pow 2 nfa.stateCount) [nfa.begin]

end Nfa

namespace RankedNfa
variable (ranked : RankedNfa)

/-- The state for one of the `sets`, which are all that a simulation comes through. -/
def stateOf (sets : Numbering (List Nat)) (set : List Nat) : Dfa.State :=
  (ranked.nfa.moves set).foldl (fun state (r, target) => state.addEdge r (sets.numberOf target))
    (.isolated set (ranked.verdict set))

/-- The deterministic automaton that follows the simulation. -/
def toDfa : Dfa :=
  let sets := ranked.nfa.reachableSets
  { states := sets.elements.map (ranked.stateOf sets) }

end RankedNfa
end TableParsing
