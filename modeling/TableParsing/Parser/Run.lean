import TableParsing.Parser.Machine

/-! # The parser as a machine

A parser is a stack machine that reads tokens.  Its stack holds the states that it came through, each with
the value of the symbol that led there; below them all lies state 0, which has no value and never leaves
the stack.

**Steps.**  In front of a token the machine shifts it, reduces the symbols on top of the stack to the
result of a production, accepts, or finds that the token does not fit.

**Recovery.**  When a token does not fit, the machine goes back on its stack to a state that has an action
for the error terminal, puts an error token in front of the rejected one, which is *deferred*, and goes on.
Once the error token has been shifted, tokens that do not fit are discarded until one has been shifted.
What a user is told in the end is the error that started the last recovery.

Nothing bounds the number of steps beforehand, so a run is given a limit, and a run that reaches its limit
has no result. -/

namespace TableParsing

/-- Answers the question for the n-th token, counted from 0.  Behind the end of the input it goes on to
answer with the token of the end. -/
abbrev TokenStream (α : Type) : Type := Nat → Logged (Except ScanError (Token α))

/-- A state on the stack with the value of the symbol that led to it. -/
structure Entry (α : Type) where
  state : Nat
  value : α

/-- Where a run stands. -/
structure Configuration (α : Type) where
  /-- The stack above state 0, the newest entry first. -/
  stack : List (Entry α)
  lookahead : Token α
  /-- The token that was rejected, while the error token stands in front of it. -/
  deferred : Option (Token α) := none
  /-- The error that started the last recovery. -/
  pending : Option SyntaxError := none
  /-- Whether the error token was shifted, and no token since. -/
  recovering : Bool := false
  /-- The number of recoveries. -/
  errors : Nat := 0
  /-- The number of tokens read from the source. -/
  read : Nat

/-- What a step comes to: a place from where to go on, or a result. -/
inductive Progress (α : Type) (γ : Type := Configuration α) where
  | running (configuration : γ)
  | finished (result : Except ParseError α)

variable {α : Type}

/-- The state on top of a stack. -/
def topState : List (Entry α) → Nat
  | [] => 0
  | entry :: _ => entry.state

namespace Machine
variable (machine : Machine α) (source : TokenStream α) (c : Configuration α)

/-- Goes on in front of the next token of the source. -/
def advance : Logged (Progress α) := do
  match ← source c.read with
  | .error e => return .finished (.error (.lexer e))
  | .ok token => return .running { c with lookahead := token, read := c.read + 1 }

/-- Takes the lookahead.  Behind the error token the deferred token comes up again. -/
def shift (next : Nat) : Logged (Progress α) := do
  .report (.shift (topState c.stack) next (machine.terminalName c.lookahead.terminal))
  let stack := ⟨next, c.lookahead.value⟩ :: c.stack
  match c.deferred with
  | some token =>
    return .running { c with stack, lookahead := token, deferred := none, recovering := true }
  | none => advance source { c with stack, recovering := false }

/-- The error that a production is given if there was none. -/
def fallbackError (state : Nat) : SyntaxError where
  state := state
  found := machine.terminalName errorTerminal
  text := ""
  expected := []
  span := ⟨0, 0⟩

/-- The value of a reduction. -/
def reduceValue (action : SemanticAction α) (uncovered : Nat) (arguments : List α) : α :=
  match action with
  | .ofValues f => f arguments
  | .ofError f => f (c.pending.getD (machine.fallbackError uncovered)) arguments

/-- Replaces the symbols on top of the stack by the result of a production. -/
def reduce (number : Nat) : Logged (Progress α) :=
  match machine.table.reductions[number]?, machine.semantics[number]? with
  | some reduction, some action =>
    let arguments := ((c.stack.take reduction.popCount).map (·.value)).reverse
    let stack := c.stack.drop reduction.popCount
    let uncovered := topState stack
    match machine.table.gotos.get? uncovered reduction.result with
    | none => return .finished (.error
        (.missingGoto uncovered (machine.nonTerminalNames.getD reduction.result "")))
    | some next => do
      .report (.reduce uncovered next number reduction.popCount)
      let value := machine.reduceValue c action uncovered arguments
      return .running { c with stack := ⟨next, value⟩ :: stack }
  | _, _ => return .finished (.error (.missingGoto (topState c.stack) ""))

/-! ## Recovery -/

/-- The error of a recovery that came to nothing: the one that started it. -/
def failure : Progress α :=
  let error := c.pending.getD (machine.syntaxError (topState c.stack) c.lookahead)
  .finished (.error (.syntaxError error))

/-- Leaves out a token that does not fit.  There is nothing behind the end of the input. -/
def discard : Logged (Progress α) :=
  if c.lookahead.terminal = endTerminal then return machine.failure c
  else do
    .report (.discarded c.lookahead.terminal c.lookahead.text)
    advance source c

/-- The longest part of the stack, from below, whose top state has an action for the error terminal. -/
def unwind? : List (Entry α) → Option (List (Entry α))
  | [] => if machine.action 0 errorTerminal = .error then none else some []
  | entry :: stack =>
    if machine.action entry.state errorTerminal = .error then unwind? stack else some (entry :: stack)

/-- Goes back on the stack and puts the error token in front of the lookahead, if recoveries are allowed
and a state has an action for it. -/
def recover [Inhabited α] : Logged (Progress α) :=
  let error := machine.syntaxError (topState c.stack) c.lookahead
  let options := machine.options
  let allowed := options.errorRecovery && c.errors < options.maxErrors
  match if allowed then machine.unwind? c.stack else none with
  | none => return .finished (.error (.syntaxError error))
  | some stack => do
    .report (.recovering (topState stack) (c.stack.length - stack.length) error.found (c.errors + 1))
    let errorToken : Token α :=
      ⟨errorTerminal, "", .emptyAt c.lookahead.span.start.toNat, default⟩
    return .running { c with
      stack
      lookahead := errorToken
      deferred := some c.lookahead
      pending := some error
      errors := c.errors + 1 }

/-- Deals with a lookahead that does not fit. -/
def reject [Inhabited α] : Logged (Progress α) :=
  if c.deferred.isSome then return machine.failure c
  else if c.recovering then machine.discard source c
  else machine.recover c

/-! ## Runs -/

/-- One step. -/
def step [Inhabited α] : Logged (Progress α) :=
  if machine.table.actions.terminalCount ≤ c.lookahead.terminal then
    return .finished (.error (.unknownToken c.lookahead.terminal))
  else
    match machine.action (topState c.stack) c.lookahead.terminal with
    | .shift next => machine.shift source c next
    | .reduce number => machine.reduce c number
    | .accept => do
      .report (.accept (topState c.stack))
      return .finished (.ok ((c.stack.head?.map (·.value)).getD default))
    | .error => machine.reject source c

/-- Makes steps until the run is finished, but no more than `limit`. -/
def run [Inhabited α] : (limit : Nat) → Configuration α → Array Event →
    Option (Except ParseError α) × Array Event
  | 0, _, events => (none, events)
  | limit + 1, c, events =>
    let stepped := machine.step source c
    let events := events ++ stepped.events
    match stepped.value with
    | .finished result => (some result, events)
    | .running c => run limit c events

/-- The number of steps after which a run is given up. -/
def stepLimit : Nat := Nat.pow 2 62

/-- Parses the tokens of a source. -/
def parse [Inhabited α] (limit : Nat) : Logged (Option (Except ParseError α)) := do
  match ← source 0 with
  | .error e => return some (.error (.lexer e))
  | .ok token =>
    let (result, events) := machine.run source limit ⟨[], token, none, none, false, 0, 1⟩ #[]
    Logged.mk result events.toList

end Machine
end TableParsing
