import TableParsing.Dfa.Minimal
import TableParsing.Dfa.Subset
import TableParsing.Event
import TableParsing.Table.Transition

/-! # Matchers

A scanner asks a matcher for three things: the state to begin in, the state behind a character, and the
verdict of a state.  Three automata can serve as one:

* a **transition table**, which looks up a column and a cell;
* a **deterministic automaton**, which searches the edges of a state;
* a **ranked automaton**, which follows all its open edges at once.

The first two are made from the third, by stages that report what they made. -/

namespace TableParsing

/-! ## Stages -/

/-- The deterministic automaton of some patterns. -/
def buildDfa (patterns : PatternList) : Logged Dfa := do
  let ranked := RankedNfa.ofPatterns patterns
  let dfa := ranked.toDfa
  .report (.builtDfa patterns.length ranked.nfa.stateCount dfa.stateCount)
  return dfa

/-- Reports a minimisation; an automaton of one state is left as it is. -/
def reportMinimized (before after : Dfa) : Logged Unit :=
  if before.stateCount ≤ 1 then return ()
  else .report (.minimizedDfa before.stateCount after.stateCount)

/-- The minimal automaton. -/
def minimizeDfa (dfa : Dfa) : Logged Dfa := do
  let minimal := dfa.minimize
  reportMinimized dfa minimal
  return minimal

/-- The table of an automaton. -/
def tabulate (dfa : Dfa) (compress : Bool) : Logged TransitionTable := do
  let table := TransitionTable.ofDfa dfa compress
  .report (.builtTransitionTable table.stateCount table.columnCount
    (table.stateCount * table.columnCount) table.storedCells)
  return table

/-- The deterministic automaton of some patterns, minimal if the options ask for it. -/
def dfaOfPatterns (patterns : PatternList) (options : LexerOptions) : Logged Dfa := do
  let dfa ← buildDfa patterns
  if options.minimize then minimizeDfa dfa else return dfa

/-! ## Matchers -/

/-- Automata of type `ε` with states of type `σ` that a scanner can run. -/
class Matcher (ε : Type) (σ : outParam Type) where
  /-- The automaton for some patterns. -/
  ofPatterns : PatternList → LexerOptions → Logged ε
  /-- The state in front of a lexeme. -/
  initial : ε → σ
  /-- The state behind a character, if the character can go on. -/
  next : ε → σ → Char → Option σ
  /-- What is done when scanning stops in a state. -/
  verdict : ε → σ → Verdict

instance : Matcher TransitionTable Nat where
  ofPatterns patterns options := do
    tabulate (← dfaOfPatterns patterns options) options.compress
  initial _ := 0
  next := TransitionTable.next
  verdict := TransitionTable.verdict

instance : Matcher Dfa Nat where
  ofPatterns := dfaOfPatterns
  initial _ := 0
  next := Dfa.step
  verdict := Dfa.verdict

instance : Matcher RankedNfa (List Nat) where
  ofPatterns patterns _ := return .ofPatterns patterns
  initial ranked := ranked.nfa.begin
  next ranked set c :=
    let after := ranked.nfa.step set c
    if after.isEmpty then none else some after
  verdict := RankedNfa.verdict

end TableParsing
