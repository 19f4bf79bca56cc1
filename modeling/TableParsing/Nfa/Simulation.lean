import TableParsing.Discovery
import TableParsing.Nfa.Basic

/-! # Simulation

The state of a simulation is the set of all states that an automaton may be in after the characters read
so far.  A set is kept as an ascending list of states without repetition. -/

namespace TableParsing

/-- The numbers of a list in ascending order, each once. -/
def ascending (xs : List Nat) : List Nat := (xs.mergeSort (· ≤ ·)).eraseReps

namespace Nfa
variable (nfa : Nfa)

/-- The states that can be reached from the `seeds` without reading, the seeds included.  No search
visits more states than there are. -/
def closure (seeds : List Nat) : List Nat :=
  ascending <|
    (discover (fun s => ((nfa.outgoing s).filter (·.isEpsilon)).map (·.target))
      nfa.stateCount seeds).toList

/-- The closure of seeds that were not made by the automaton itself; there is none if a seed is not one
of the states. -/
def closure? (seeds : List Nat) : Option (List Nat) :=
  if seeds.all (· < nfa.stateCount) then some (nfa.closure seeds) else none

/-- The states reached from those of `set` by reading `c`. -/
def move (set : List Nat) (c : Char) : List Nat :=
  ascending <| (set.flatMap nfa.outgoing).filterMap fun e =>
    if e.reads c then some e.target else none

/-- The set after `c` has been read in one of the states of `set`. -/
def step (set : List Nat) (c : Char) : List Nat := nfa.closure (nfa.move set c)

/-- The set before anything has been read. -/
def begin : List Nat := nfa.closure [nfa.start]

/-- The set after `text` has been read. -/
def run (text : List Char) : List Nat := text.foldl nfa.step nfa.begin

/-- The slots of the accepting states in a set, in the order of the states. -/
def slots (set : List Nat) : List Nat := set.filterMap nfa.slot?

/-- Whether the automaton may stop behind `text`. -/
def accepts? (text : List Char) : Bool := !(nfa.slots (nfa.run text)).isEmpty

end Nfa
end TableParsing
