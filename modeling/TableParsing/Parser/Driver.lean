import TableParsing.Parser.Run

/-! # The driver with two stacks

What runs is the machine with its stack in two arrays: the **states**, with state 0 at the bottom, and the **values**.
They are pushed one after the other, and nothing but the driver keeps them in step.  A reduction takes as many entries
off each of them as it is long, or as many as there are, but never the last state; a recovery pops both until it comes
to a state with an action for the error terminal. -/

namespace TableParsing

variable {α : Type}

/-! ## The stacks -/

/-- The two stacks of a parse, the newest entries last. -/
structure Stacks (α : Type) where
  states : Array Nat
  values : Array α

namespace Stacks

/-- The stacks at the beginning of a parse. -/
def initial : Stacks α := ⟨#[0], #[]⟩

variable (pair : Stacks α)

/-- The state on top. -/
def top : Nat := pair.states.back?.getD 0

/-- Takes one entry off each stack that has one. -/
def pop : Stacks α := ⟨pair.states.pop, pair.values.pop⟩

/-- The topmost values, the newest last: as many as are asked for, or as many as there are. -/
def arguments (n : Nat) : List α :=
  (pair.values.extract (pair.values.size - n) pair.values.size).toList

/-- Takes entries off both stacks, as many as are asked for or as many as there are, but not the last state. -/
def cut (n : Nat) : Stacks α where
  states := pair.states.shrink (max (pair.states.size - n) 1)
  values := pair.values.shrink (pair.values.size - n)

end Stacks

/-! ## Steps -/

/-- Where a parse stands. -/
structure Driver (α : Type) extends Stacks α where
  lookahead : Token α
  /-- The token that was rejected, while the error token stands in front of it. -/
  deferred : Option (Token α) := none
  /-- The error that started the last recovery. -/
  pending : Option SyntaxError := none
  /-- Whether the error token was shifted, and no token since. -/
  recovering : Bool := false
  /-- The number of recoveries. -/
  errors : Nat := 0
  /-- The number of tokens read from the source. -/
  read : Nat

namespace Driver
variable (machine : Machine α) (source : TokenStream α) (d : Driver α)

/-- Goes on in front of the next token of the source. -/
def advance : Logged (Progress α (Driver α)) := do
  match ← source d.read with
  | .error e => return .finished (.error (.lexer e))
  | .ok token => return .running { d with lookahead := token, read := d.read + 1 }

/-- Takes the lookahead: first its state, and when the next token has come up, its value. -/
def shift (next : Nat) : Logged (Progress α (Driver α)) := do
  .report (.shift d.top next (machine.terminalName d.lookahead.terminal))
  let states := d.states.push next
  match d.deferred with
  | some token =>
    let values := d.values.push d.lookahead.value
    return .running { d with states, values, lookahead := token, deferred := none, recovering := true }
  | none =>
    match ← source d.read with
    | .error e => return .finished (.error (.lexer e))
    | .ok token =>
      let values := d.values.push d.lookahead.value
      return .running { d with states, values, lookahead := token, recovering := false, read := d.read + 1 }

/-- The value of a reduction that uncovers a state. -/
def reduceValue (action : SemanticAction α) (uncovered : Nat) (arguments : List α) : α :=
  match action with
  | .ofValues f => f arguments
  | .ofError f => f (d.pending.getD (machine.fallbackError uncovered)) arguments

/-- Replaces the symbols on top of the stacks by the result of a production. -/
def reduce (number : Nat) : Logged (Progress α (Driver α)) :=
  match machine.table.reductions[number]?, machine.semantics[number]? with
  | some reduction, some action =>
    let arguments := d.arguments reduction.popCount
    let pair := d.cut reduction.popCount
    let value := d.reduceValue machine action pair.top arguments
    match machine.table.gotos.get? pair.top reduction.result with
    | none => return .finished (.error
        (.missingGoto pair.top (machine.nonTerminalNames.getD reduction.result "")))
    | some next => do
      .report (.reduce pair.top next number reduction.popCount)
      return .running { d with states := pair.states.push next, values := pair.values.push value }
  | _, _ => return .finished (.error (.missingGoto d.top ""))

/-! ## Recovery -/

/-- The error of a recovery that came to nothing: the one that started it. -/
def failure : Progress α (Driver α) :=
  .finished (.error (.syntaxError (d.pending.getD (machine.syntaxError d.top d.lookahead))))

/-- Leaves out a token that does not fit.  There is nothing behind the end of the input. -/
def discard : Logged (Progress α (Driver α)) :=
  if d.lookahead.terminal = endTerminal then return d.failure machine
  else do
    .report (.discarded d.lookahead.terminal d.lookahead.text)
    d.advance source

/-- Pops both stacks until the top state has an action for the error terminal, and counts the pops. -/
def unwind? (pair : Stacks α) (popped : Nat) : Option (Stacks α × Nat) :=
  match h : pair.states.back? with
  | none => none
  | some state =>
    if machine.action state errorTerminal = .error then unwind? pair.pop (popped + 1)
    else some (pair, popped)
termination_by pair.states.size
decreasing_by
  have nonempty : pair.states.size ≠ 0 := by
    intro empty
    rw [Array.size_eq_zero_iff.mp empty] at h
    cases h
  simp only [Stacks.pop, Array.size_pop]
  omega

/-- Goes back on the stacks and puts the error token in front of the lookahead, if recoveries are allowed and a state
has an action for it. -/
def recover [Inhabited α] : Logged (Progress α (Driver α)) :=
  let error := machine.syntaxError d.top d.lookahead
  let options := machine.options
  if !options.errorRecovery || options.maxErrors ≤ d.errors then return .finished (.error (.syntaxError error))
  else
    match unwind? machine d.toStacks 0 with
    | none => return .finished (.error (.syntaxError error))
    | some (pair, popped) => do
      .report (.recovering pair.top popped error.found (d.errors + 1))
      let errorToken : Token α :=
        ⟨errorTerminal, "", .emptyAt d.lookahead.span.start.toNat, default⟩
      return .running { d with
        toStacks := pair
        lookahead := errorToken
        deferred := some d.lookahead
        pending := some error
        errors := d.errors + 1 }

/-- Deals with a lookahead that does not fit. -/
def reject [Inhabited α] : Logged (Progress α (Driver α)) :=
  if d.deferred.isSome then return d.failure machine
  else if d.recovering then d.discard machine source
  else d.recover machine

/-! ## Runs -/

/-- One step. -/
def step [Inhabited α] : Logged (Progress α (Driver α)) :=
  if machine.table.actions.terminalCount ≤ d.lookahead.terminal then
    return .finished (.error (.unknownToken d.lookahead.terminal))
  else
    match machine.action d.top d.lookahead.terminal with
    | .shift next => d.shift machine source next
    | .reduce number => d.reduce machine number
    | .accept => do
      .report (.accept d.top)
      return .finished (.ok (d.values.back?.getD default))
    | .error => d.reject machine source

/-- Makes steps until the run is finished, but no more than `limit`. -/
def run [Inhabited α] : (limit : Nat) → Driver α → Array Event →
    Option (Except ParseError α) × Array Event
  | 0, _, events => (none, events)
  | limit + 1, d, events =>
    let stepped := d.step machine source
    let events := events ++ stepped.events
    match stepped.value with
    | .finished result => (some result, events)
    | .running d => run limit d events

/-- A parse in front of its first token. -/
def start (token : Token α) : Driver α := { Stacks.initial with lookahead := token, read := 1 }

end Driver

/-- Parses the tokens of a source with two stacks. -/
def Machine.drive [Inhabited α] (machine : Machine α) (source : TokenStream α) (limit : Nat) :
    Logged (Option (Except ParseError α)) := do
  match ← source 0 with
  | .error e => return some (.error (.lexer e))
  | .ok token =>
    let (result, events) := Driver.run machine source limit (.start token) #[]
    Logged.mk result events.toList

end TableParsing
