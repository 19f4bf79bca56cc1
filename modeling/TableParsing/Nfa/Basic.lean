import TableParsing.CharSet.Basic

/-! # Automata with choices

An `Nfa` moves between numbered states along edges.  An edge with a label is taken by reading one of its
characters, and one without a label is taken without reading.  Several edges may be open at once.

**Accept slots.**  The accepting states form a list; the position of a state on it is its slot.  When the
automata of several patterns are merged, the slot tells which of the patterns has matched. -/

namespace TableParsing

namespace Nfa

/-- An edge; without a label it is taken without reading a character. -/
structure Edge where
  source : Nat
  target : Nat
  label : Option CharSet
deriving DecidableEq

namespace Edge

/-- Whether the edge is taken without reading. -/
def isEpsilon (e : Edge) : Bool := e.label.isNone

/-- Whether the edge may be taken by reading `c`. -/
def reads (e : Edge) (c : Char) : Bool := e.label.any (·.contains c)

/-- The edge with `n` added to the numbers of its ends. -/
def shift (n : Nat) (e : Edge) : Edge where
  source := e.source + n
  target := e.target + n
  label := e.label

end Edge

/-- For each of the states below `stateCount` the edges that leave it, in their order. -/
def bySource (stateCount : Nat) (edges : List Edge) : Array (List Edge) :=
  edges.foldr (fun e leaving => leaving.modify e.source (e :: ·)) (Array.replicate stateCount [])

theorem size_bySource (stateCount : Nat) (edges : List Edge) :
    (bySource stateCount edges).size = stateCount := by
  induction edges with
  | nil => simp [bySource]
  | cons e edges ih => simpa [bySource] using ih

theorem getD_bySource {stateCount s : Nat} (edges : List Edge) (h : s < stateCount) :
    (bySource stateCount edges).getD s [] = edges.filter (·.source = s) := by
  induction edges with
  | nil => simp [bySource, h]
  | cons e edges ih =>
    have hs : s < (bySource stateCount edges).size := by rwa [size_bySource]
    have cons : bySource stateCount (e :: edges) =
        (bySource stateCount edges).modify e.source (e :: ·) := rfl
    rw [cons, ← Array.getElem_eq_getD (h := by simpa using hs), Array.getElem_modify]
    rw [← Array.getElem_eq_getD (h := hs)] at ih
    by_cases he : e.source = s <;> simp [he, ih]

end Nfa

/-- An automaton with choices.  Its states are the numbers below `stateCount`. -/
structure Nfa where
  stateCount : Nat
  /-- The edges in the order in which they were made. -/
  edges : List Nfa.Edge
  /-- The accepting states in the order of their slots. -/
  accepts : List Nat
  start : Nat
  /-- The edges once more, sorted by the states that they leave. -/
  leaving : Array (List Nfa.Edge) := Nfa.bySource stateCount edges
  leaving_eq : leaving = Nfa.bySource stateCount edges := by rfl
deriving DecidableEq

namespace Nfa
variable (nfa : Nfa)

/-- The edges that leave a state. -/
def outgoing (s : Nat) : List Edge := nfa.leaving.getD s []

theorem outgoing_eq_filter {s : Nat} (h : s < nfa.stateCount) :
    nfa.outgoing s = nfa.edges.filter (·.source = s) := by
  rw [outgoing, nfa.leaving_eq, getD_bySource nfa.edges h]

/-- The slot of an accepting state. -/
def slot? (s : Nat) : Option Nat := nfa.accepts.idxOf? s

/-! ## Merging -/

/-- One state without edges. -/
def initial : Nfa where
  stateCount := 1
  edges := []
  accepts := []
  start := 0

/-- The automaton with `part` beside it, which can be entered from the start.  The states of `part` are
numbered on, and so are its slots. -/
def join (part : Nfa) : Nfa where
  stateCount := nfa.stateCount + part.stateCount
  edges := nfa.edges ++ part.edges.map (·.shift nfa.stateCount) ++
    [⟨nfa.start, part.start + nfa.stateCount, none⟩]
  accepts := nfa.accepts ++ part.accepts.map (· + nfa.stateCount)
  start := nfa.start

/-- The automata `parts` behind a new start state.  If each part has one accepting state, the slot of a
match is the position of the part. -/
def merge (parts : List Nfa) : Nfa := parts.foldl join initial

end Nfa
end TableParsing
