import TableParsing.Bisection
import TableParsing.CharSet.Elementary
import TableParsing.Lexer.Verdict

/-! # Deterministic automata

In a `Dfa` at most one edge is open for a character.  The states are numbered, beginning with the start,
which has the number 0.  A state keeps one edge for each state that it leads to, with the characters of
that edge as a set; the edges stand in the order in which they were first needed. -/

namespace TableParsing

/-- A state with its edges and its verdict. -/
structure Dfa.State where
  /-- The states of the automaton with choices that this state stands for. -/
  members : List Nat
  /-- The labels of the edges with the states that they lead to. -/
  edges : List (CharSet × Nat)
  verdict : Verdict
deriving DecidableEq, Inhabited

namespace Dfa.State

/-- A state that nothing leaves. -/
def isolated (members : List Nat) (verdict : Verdict) : Dfa.State := ⟨members, [], verdict⟩

/-- The edges with the characters of `r` leading to `target`. -/
def extendEdges (edges : List (CharSet × Nat)) (r : CharRange) (target : Nat) :
    List (CharSet × Nat) :=
  match edges with
  | [] => [(CharSet.empty.insert r, target)]
  | (label, t) :: rest =>
    if t = target then (label.insert r, t) :: rest else (label, t) :: extendEdges rest r target

variable (state : Dfa.State)

/-- The state with an edge over `r` to `target`. -/
def addEdge (r : CharRange) (target : Nat) : Dfa.State :=
  { state with edges := extendEdges state.edges r target }

/-- The ranges of all labels with their targets, in ascending order. -/
def lookup : Array (CharRange × Nat) :=
  let ranges := state.edges.flatMap fun (label, target) => label.ranges.map (·, target)
  (ranges.mergeSort fun a b => a.1.lo ≤ b.1.lo).toArray

/-- The target of the range that holds `c`, in such a table. -/
def search (table : Array (CharRange × Nat)) (c : Char) : Option Nat :=
  (table[bisect (fun entry => entry.1.hi < c) table]?).bind fun (r, target) =>
    if r.contains c then some target else none

/-- The state that reading `c` leads to. -/
def target? (c : Char) : Option Nat := search state.lookup c

/-- The states that reading each of some characters leads to. -/
def targets (cs : List Char) : List (Option Nat) :=
  let table := state.lookup
  cs.map (search table)

theorem targets_eq_map (cs : List Char) : state.targets cs = cs.map state.target? := rfl

end Dfa.State

/-- A deterministic automaton that begins in state 0. -/
structure Dfa where
  states : Array Dfa.State
  /-- The look-up tables of the states. -/
  lookups : Array (Array (CharRange × Nat)) := states.map Dfa.State.lookup
  lookups_eq : lookups = states.map Dfa.State.lookup := by rfl
deriving DecidableEq

instance : Inhabited Dfa := ⟨{ states := #[] }⟩

namespace Dfa
variable (dfa : Dfa)

/-- The number of states. -/
def stateCount : Nat := dfa.states.size

/-- The state that reading `c` leads to from `s`. -/
def step (s : Nat) (c : Char) : Option Nat := dfa.lookups[s]?.bind (State.search · c)

theorem step_eq_bind (s : Nat) (c : Char) : dfa.step s c = dfa.states[s]?.bind (·.target? c) := by
  rw [step, dfa.lookups_eq, Array.getElem?_map]
  cases dfa.states[s]? <;> rfl

/-- The verdict of a state; a number that no state has is rejected. -/
def verdict (s : Nat) : Verdict := (dfa.states[s]?.map (·.verdict)).getD .reject

/-- The labels of all edges, state by state. -/
def labels : List CharSet := dfa.states.toList.flatMap fun state => state.edges.map Prod.fst

/-- The elementary ranges of the labels. -/
def columns : CharSet := CharSet.elementary dfa.labels

/-! ## Longest matches -/

/-- The verdict and the length of the longest match, from state `s` with `length` characters read; `best`
is the longest match so far. -/
def matchFrom (s length : Nat) (best : Option (Verdict × Nat)) :
    List Char → Option (Verdict × Nat)
  | [] => update s length best
  | c :: text =>
    match dfa.step s c with
    | none => update s length best
    | some t => matchFrom t (length + 1) (update s length best) text
where
  /-- The match up to `s` if `s` accepts, and otherwise the best one so far. -/
  update (s length : Nat) (best : Option (Verdict × Nat)) : Option (Verdict × Nat) :=
    if (dfa.verdict s).isAccepting then some (dfa.verdict s, length) else best

/-- The verdict of the longest accepted front part of `text`, and its length. -/
def longestMatch (text : List Char) : Option (Verdict × Nat) := dfa.matchFrom 0 0 none text

end Dfa
end TableParsing
