import TableParsing.Grammar.Basic
import TableParsing.Grammar.Error
import TableParsing.Lr.Collection

/-! # Demands and conflicts

In front of a terminal a state has **demands**: to shift it, if a transition leads on; to reduce a
production whose item is complete and may be followed by it; to accept, at the end of the input.  Demands
on one terminal meet in a cell, one after the other.

* Equal demands are one.
* Between a shift and a reduction the levels of precedence decide, and between equal levels the way in
  which the operators group.  Operators that do not group leave the cell **blocked**: the terminal is an
  error there, whatever else comes up, except the same reduction once more.
* All else is a conflict. -/

namespace TableParsing

/-- What a state asks to do in front of a terminal. -/
inductive Demand where
  | shift (target : Nat)
  | reduce (production : Nat)
  | accept
deriving DecidableEq, Repr

/-- What the demands on a terminal have come to. -/
inductive Cell where
  | empty
  | demand (demand : Demand)
  /-- The terminal is an error because of operators that do not group; the reduction was refused. -/
  | blocked (production : Nat)
deriving DecidableEq, Inhabited, Repr

/-- Demands that do not go together. -/
inductive Conflict where
  /-- The shift of a terminal and a reduction, without a precedence on either side. -/
  | shiftReduce (state terminal production : Nat)
  /-- Two demands on a terminal of which precedence does not speak; `blocked` says that the cell of the
  first was blocked. -/
  | reduceReduce (state terminal : Nat) (first second : Demand) (blocked : Bool)
deriving DecidableEq, Repr

/-! ## Demands of a state -/

namespace Cfg
variable (cfg : Cfg)

/-- The terminal that a transition asks to shift. -/
def shiftDemand? : Symbol × Nat → Option (Nat × Demand)
  | (.terminal t, target) => some (t, .shift target)
  | (.nonTerminal _, _) => none

/-- Whether the dot is behind all symbols. -/
def isComplete (core : Core) : Bool := (cfg.symbolsOf core.production).length ≤ core.dot

/-- The demands of an item, which has one only if it is complete. -/
def itemDemands (item : Item) : List (Nat × Demand) :=
  if cfg.isComplete item.core then
    match cfg.resultOf? item.core.production with
    | none => [(endTerminal, .accept)]
    | some _ => item.lookahead.toList.map (·, .reduce item.core.production)
  else []

/-- The demands of a state in the order in which they meet: first the shifts, then those of the items. -/
def demands (state : Collection.State) : List (Nat × Demand) :=
  state.transitions.filterMap shiftDemand? ++ state.items.items.flatMap cfg.itemDemands

end Cfg

/-! ## Meeting in a cell -/

/-- The cell for a shift and a reduction with precedence on both sides. -/
def Precedence.decide (shift reduce : Precedence) (target production : Nat) : Cell :=
  match compare reduce.level shift.level with
  | .gt => .demand (.reduce production)
  | .lt => .demand (.shift target)
  | .eq =>
    match shift.associativity with
    | .left => .demand (.reduce production)
    | .right => .demand (.shift target)
    | .nonAssoc => .blocked production

namespace Grammar
variable {α : Type} (grammar : Grammar α)

/-- The cell for a shift of a terminal and a reduction, if both sides have a precedence. -/
def settle? (terminal target production : Nat) : Option Cell := do
  let shift ← (← grammar.terminals[terminal]?).precedence
  let reduce ← (← grammar.productions[production]?).precedence
  return shift.decide reduce target production

/-- The cell of a terminal in a state after one more demand. -/
def meet (state terminal : Nat) (cell : Cell) (new : Demand) : Except Conflict Cell :=
  match cell, new with
  | .empty, new => .ok (.demand new)
  | .blocked production, new =>
    if new = .reduce production then .ok (.blocked production)
    else .error (.reduceReduce state terminal (.reduce production) new true)
  | .demand (.shift target), .reduce production
  | .demand (.reduce production), .shift target =>
    match grammar.settle? terminal target production with
    | some cell => .ok cell
    | none => .error (.shiftReduce state terminal production)
  | .demand old, new =>
    if old = new then .ok (.demand old)
    else .error (.reduceReduce state terminal old new false)

/-- The cells of a state after its demands, from some cells on. -/
def fillFrom (state : Nat) (cells : Array Cell) : List (Nat × Demand) → Except Conflict (Array Cell)
  | [] => .ok cells
  | (terminal, new) :: demands => do
    let cell ← grammar.meet state terminal (cells.getD terminal .empty) new
    fillFrom state (cells.setIfInBounds terminal cell) demands

/-- The cells of a state, one for each terminal. -/
def fillRow (index : Nat) (state : Collection.State) : Except Conflict (List Cell) := do
  let cells := Array.replicate grammar.terminals.length .empty
  return (← grammar.fillFrom index cells (grammar.cfg.demands state)).toList

/-! ## Conflicts in words -/

/-- A demand in words. -/
def renderDemand : Demand → String
  | .shift target => s!"shift {target}"
  | .reduce production => grammar.renderProduction production
  | .accept => "$accept -> " ++ grammar.nonTerminalName grammar.start

/-- A conflict with the names of what is in it.  Two demands are named in alphabetical order. -/
def conflictError : Conflict → GrammarError
  | .shiftReduce state terminal production =>
    let result := (grammar.cfg.resultOf? production).map grammar.nonTerminalName
    .shiftReduce state (grammar.terminalName terminal) (result.getD "?")
      (grammar.renderProduction production)
  | .reduceReduce state terminal first second _ =>
    let a := grammar.renderDemand first
    let b := grammar.renderDemand second
    if b < a then .reduceReduce state (grammar.terminalName terminal) b a
    else .reduceReduce state (grammar.terminalName terminal) a b

end Grammar
end TableParsing
