import TableParsing.Discovery
import TableParsing.Nfa.Basic
import TableParsing.Pattern.Postfix

/-! # The automaton of a pattern

The operations of a pattern are carried out on a stack of **fragments**.  A fragment is a part of one
common graph with a state where it is entered and a state where it has matched; nothing leaves the
latter while the fragment is on the stack.

Operations only add states and edges, with one exception: `concat` bends the edges into the end of its
first fragment over to the beginning of the second, which leaves that end behind as a state of no use.
`finish` drops such states and numbers the others in the order of a breadth-first search. -/

namespace TableParsing

/-- A part of a graph, from where it is entered to where it has matched. -/
structure Fragment where
  start : Nat
  accept : Nat
deriving DecidableEq

/-- An edge seen from the state that it leaves. -/
structure Exit where
  target : Nat
  label : Option CharSet
deriving DecidableEq

/-- The edge with its target replaced by what `f` makes of it. -/
def Exit.retarget (f : Nat → Nat) (exit : Exit) : Exit := ⟨f exit.target, exit.label⟩

/-- The common graph of the fragments: for each state the edges that leave it, in the order in which they
were made. -/
structure Graph where
  exits : Array (List Exit)

namespace Graph

/-- The graph without states. -/
def empty : Graph := ⟨#[]⟩

variable (graph : Graph)

/-- The number of states. -/
def stateCount : Nat := graph.exits.size

/-- The edges that leave a state. -/
def outgoing (s : Nat) : List Exit := graph.exits.getD s []

/-- The graph with one more state, which has the number `graph.stateCount`. -/
def addState : Graph := ⟨graph.exits.push []⟩

/-- The graph with one more edge. -/
def addEdge (source target : Nat) (label : Option CharSet) : Graph :=
  ⟨graph.exits.modify source (· ++ [⟨target, label⟩])⟩

/-- The graph with one more edge that is taken without reading. -/
def addEpsilon (source target : Nat) : Graph := graph.addEdge source target none

/-- The states that can be reached from `root`, numbered in breadth-first order. -/
def reachable (root : Nat) : Numbering Nat :=
  discover (fun s => (graph.outgoing s).map (·.target)) graph.stateCount [root]

/-! ## Operations -/

/-- A fragment for one character of `set`. -/
def accept (set : CharSet) : Graph × Fragment :=
  let s := graph.stateCount
  (graph.addState.addState.addEdge s (s + 1) (some set), ⟨s, s + 1⟩)

/-- One fragment behind the other: what led to the end of `a` leads to the beginning of `b`. -/
def concat (a b : Fragment) : Graph × Fragment :=
  let bend (s : Nat) : Nat := if s = a.accept then b.start else s
  (⟨graph.exits.map (·.map (·.retarget bend))⟩, ⟨a.start, b.accept⟩)

/-- Two fragments side by side. -/
def alternate (a b : Fragment) : Graph × Fragment :=
  let s := graph.stateCount
  let graph := (graph.addState.addState.addEpsilon s a.start).addEpsilon s b.start
  ((graph.addEpsilon a.accept (s + 1)).addEpsilon b.accept (s + 1), ⟨s, s + 1⟩)

/-- Any number of passes through a fragment.  It is entered at the end of `x`, from where a pass can
begin or the end be reached. -/
def star (x : Fragment) : Graph × Fragment :=
  let s := graph.stateCount
  let graph := graph.addState.addState.addEpsilon s x.accept
  ((graph.addEpsilon x.accept x.start).addEpsilon x.accept (s + 1), ⟨s, s + 1⟩)

/-- At least one pass through a fragment: it is entered at its own beginning. -/
def plus (x : Fragment) : Graph × Fragment :=
  let s := graph.stateCount
  ((graph.addState.addEpsilon x.accept x.start).addEpsilon x.accept s, ⟨x.start, s⟩)

/-- A fragment that may be passed by. -/
def optional (x : Fragment) : Graph × Fragment :=
  (graph.addEpsilon x.start x.accept, x)

/-! ## Counted repetition -/

/-- A fragment like `x` made of new states. -/
def copy (x : Fragment) : Graph × Fragment :=
  let states := graph.reachable x.start
  let base := graph.stateCount
  let renumber (s : Nat) : Nat := base + states.numberOf s
  let copied := states.elements.map fun s => (graph.outgoing s).map (·.retarget renumber)
  let graph : Graph := ⟨graph.exits ++ copied⟩
  (if (states.number? x.accept).isSome then graph else graph.addState, ⟨base, renumber x.accept⟩)

/-- A number of copies of `x`. -/
def copies (graph : Graph) (x : Fragment) : Nat → Graph × List Fragment
  | 0 => (graph, [])
  | n + 1 =>
    let (graph, first) := graph.copy x
    let (graph, rest) := graph.copies x n
    (graph, first :: rest)

/-- The fragments of a list one behind the other, after `chain`. -/
def chain (graph : Graph) (chain : Fragment) : List Fragment → Graph × Fragment
  | [] => (graph, chain)
  | next :: rest =>
    let (graph, joined) := graph.concat chain next
    graph.chain joined rest

/-- From `min` to `max` passes, the latter not below one: a chain of `max` copies, which may be left for
its end in front of every copy beyond the first `min`.  All copies are made of the fragment as it
is before the chain bends its edges. -/
def repeatBounded (x : Fragment) (min max : Nat) : Graph × Fragment :=
  let (graph, others) := graph.copies x (Nat.max max min - 1)
  let (graph, whole) := graph.chain x others
  let skip (graph : Graph) (copy : Fragment) : Graph := graph.addEpsilon copy.start whole.accept
  (((x :: others).drop min).foldl skip graph, whole)

/-- From `min` to `max` passes; without a `max`, `min` copies with any number of passes behind them. -/
def «repeat» (x : Fragment) (min : Nat) (max : Option Nat) : Graph × Fragment :=
  match min, max with
  | min, some max => graph.repeatBounded x min max
  | 0, none => graph.star x
  | min, none =>
    let (graph, tail) := graph.copy x
    let (graph, tail) := graph.star tail
    let (graph, head) := graph.repeatBounded x min min
    graph.concat head tail

/-- Carries out one operation; there is no answer if the stack has too few fragments for it. -/
def perform? (graph : Graph) : List Fragment → PatternOp → Option (Graph × List Fragment)
  | stack, .accept set => some (push stack (graph.accept set))
  | b :: a :: stack, .concat => some (push stack (graph.concat a b))
  | b :: a :: stack, .alternate => some (push stack (graph.alternate a b))
  | x :: stack, .star => some (push stack (graph.star x))
  | x :: stack, .plus => some (push stack (graph.plus x))
  | x :: stack, .optional => some (push stack (graph.optional x))
  | x :: stack, .repeat min max => some (push stack (graph.repeat x min max))
  | _, _ => none
where
  push (stack : List Fragment) : Graph × Fragment → Graph × List Fragment
    | (graph, x) => (graph, x :: stack)

/-- The automaton of a fragment. -/
def finish (x : Fragment) : Nfa :=
  let states := graph.reachable x.start
  let edgesOf (s : Nat) : List Nfa.Edge := (graph.outgoing s).map fun exit =>
    ⟨states.numberOf s, states.numberOf exit.target, exit.label⟩
  { stateCount := states.size
    edges := states.toList.flatMap edgesOf
    accepts := (states.number? x.accept).toList
    start := 0 }

end Graph

namespace Nfa

/-- The automaton of a list of operations, if they leave one fragment on the stack. -/
def ofOperations? (ops : List PatternOp) : Option Nfa := do
  let (graph, stack) ← ops.foldlM (fun (graph, stack) op => graph.perform? stack op)
    ((Graph.empty, []) : Graph × List Fragment)
  match stack with
  | [x] => some (graph.finish x)
  | _ => none

/-- The automaton of a pattern. -/
def ofPattern (pattern : String) : Except PatternError Nfa := do
  let ops ← PatternOp.ofPattern pattern
  match ofOperations? ops with
  | some nfa => return nfa
  | none => throw ⟨pattern, pattern.length, .missingOperand⟩

end Nfa
end TableParsing
