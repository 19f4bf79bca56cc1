import TableParsing.Proofs.Parser.Chronicle

/-! # Whose error a production is given

A production may ask for an error.  A machine has one to give, the error that started the last recovery, although there
may be more than one error token on its stack.  To say whose error a production is given, a record is kept beside the
run: of each entry of the stack the configuration in which the error was detected whose recovery put it there, and the
configuration in which the last error was detected (`Origins`).

**A production is given the error that was detected last** (`error_production_sees_last`).  That is the error of its own
error token if no recovery has begun since that was taken.  Otherwise it is the error of a recovery inside of what the
production is made of (`error_production_sees_other`). -/

namespace TableParsing

variable {α : Type}

/-- Where the error tokens of a stack come from. -/
structure Origins (α : Type) where
  /-- For each entry of the stack, the newest first, where the error was detected whose recovery put it there. -/
  owners : List (Option (Configuration α)) := []
  /-- Where the last error was detected. -/
  latest : Option (Configuration α) := none

namespace Origins

/-- What becomes of the origins in a step. -/
def next (machine : Machine α) (origins : Origins α) (c c' : Configuration α) : Origins α :=
  match machine.action (topState c.stack) c.lookahead.terminal with
  | .shift _ => { origins with owners := (if c.deferred.isSome then origins.latest else none) :: origins.owners }
  | .reduce number =>
    let popCount := (machine.table.reductions[number]?.map (·.popCount)).getD 0
    { origins with owners := none :: origins.owners.drop popCount }
  | .accept => origins
  | .error =>
    if c.recovering then origins
    else { owners := origins.owners.drop (c.stack.length - c'.stack.length), latest := some c }

variable {machine : Machine α} {origins : Origins α} {c : Configuration α} {target number : Nat}

theorem next_take (action : machine.action (topState c.stack) c.lookahead.terminal = .shift target)
    (deferred : c.deferred = none) (c' : Configuration α) :
    origins.next machine c c' = { origins with owners := none :: origins.owners } := by
  simp [next, action, deferred]

theorem next_takeError {rejected : Token α}
    (action : machine.action (topState c.stack) c.lookahead.terminal = .shift target)
    (deferred : c.deferred = some rejected) (c' : Configuration α) :
    origins.next machine c c' = { origins with owners := origins.latest :: origins.owners } := by
  simp [next, action, deferred]

theorem next_reduce {reduction : Reduction}
    (action : machine.action (topState c.stack) c.lookahead.terminal = .reduce number)
    (hreduction : machine.table.reductions[number]? = some reduction) (c' : Configuration α) :
    origins.next machine c c' = { origins with owners := none :: origins.owners.drop reduction.popCount } := by
  simp [next, action, hreduction]

theorem next_leaveOut (action : machine.action (topState c.stack) c.lookahead.terminal = .error)
    (recovering : c.recovering = true) (c' : Configuration α) : origins.next machine c c' = origins := by
  simp [next, action, recovering]

theorem next_recover (action : machine.action (topState c.stack) c.lookahead.terminal = .error)
    (recovering : c.recovering = false) (c' : Configuration α) : origins.next machine c c' =
      { owners := origins.owners.drop (c.stack.length - c'.stack.length), latest := some c } := by
  simp [next, action, recovering]

end Origins

/-! ## The invariant -/

variable [Inhabited α]

/-- The configurations that a run comes through, each with the origins of its errors. -/
def Machine.Attributes (machine : Machine α) (source : TokenStream α) : Origins α → Configuration α → Prop :=
  machine.Records source {} (Origins.next machine)

/-- What is known of where an error was detected that is on record. -/
structure Machine.Blames (machine : Machine α) (source : TokenStream α) (origin : Configuration α) : Prop where
  reaches : machine.Reaches source origin
  detects : machine.Detects origin

/-- The error at hand is the one that was detected last. -/
structure Attributed (machine : Machine α) (source : TokenStream α) (origins : Origins α) (c : Configuration α) :
    Prop where
  length_eq : origins.owners.length = c.stack.length
  pending_eq : c.pending = origins.latest.map machine.detected
  errors_eq : c.errors = (origins.latest.map (·.errors + 1)).getD 0
  latest : ∀ last, origins.latest = some last → machine.Blames source last
  /-- Only the owner that was detected last has no recovery behind it. -/
  owners : ∀ owner, some owner ∈ origins.owners → machine.Blames source owner ∧ owner.errors < c.errors ∧
    (owner.errors + 1 = c.errors → origins.latest = some owner)

namespace Attributed
variable {machine : Machine α} {source : TokenStream α} {origins : Origins α} {c c' : Configuration α}

theorem start (token : Token α) : Attributed machine source {} ⟨[], token, none, none, false, 0, 1⟩ :=
  ⟨rfl, rfl, rfl, nofun, nofun⟩

/-- The last origin is known as an owner is. -/
theorem blames_latest (h : Attributed machine source origins c) {owner : Configuration α}
    (latest : origins.latest = some owner) : machine.Blames source owner ∧ owner.errors < c.errors ∧
      (owner.errors + 1 = c.errors → origins.latest = some owner) := by
  refine ⟨h.latest owner latest, ?_, fun _ => latest⟩
  rw [h.errors_eq, latest]
  exact Nat.lt_succ_self _

/-- **Every step keeps the invariant.** -/
theorem step (h : Attributed machine source origins c) (reaches : machine.Reaches source c)
    (running : (machine.step source c).value = .running c') :
    Attributed machine source (origins.next machine c c') c' := by
  cases Machine.step_of_running running with
  | shift action deferred =>
    rw [Origins.next_take action deferred]
    refine ⟨congrArg Nat.succ h.length_eq, h.pending_eq, h.errors_eq, h.latest, fun owner owns => ?_⟩
    rcases List.mem_cons.mp owns with same | owns
    · cases same
    · exact h.owners owner owns
  | shiftError action deferred =>
    rw [Origins.next_takeError action deferred]
    refine ⟨congrArg Nat.succ h.length_eq, h.pending_eq, h.errors_eq, h.latest, fun owner owns => ?_⟩
    rcases List.mem_cons.mp owns with same | owns
    · exact h.blames_latest same.symm
    · exact h.owners owner owns
  | reduce action hreduction =>
    rw [Origins.next_reduce action hreduction]
    refine ⟨?_, h.pending_eq, h.errors_eq, h.latest, fun owner owns => ?_⟩
    · simp [h.length_eq]
    · rcases List.mem_cons.mp owns with same | owns
      · cases same
      · exact h.owners owner (List.mem_of_mem_drop owns)
  | discard action deferred recovering =>
    rw [Origins.next_leaveOut action recovering]
    exact ⟨h.length_eq, h.pending_eq, h.errors_eq, h.latest, h.owners⟩
  | recover action deferred recovering unwound =>
    rw [Origins.next_recover action recovering]
    have detects : machine.Detects c := ⟨Machine.known_of_running running, action, deferred, recovering⟩
    refine ⟨?_, rfl, rfl, fun last same => ?_, fun owner owns => ?_⟩
    · have shorter := (Machine.suffix_of_unwind? unwound).length_le
      simp only [List.length_drop, h.length_eq]
      omega
    · cases same
      exact ⟨reaches, detects⟩
    · -- the owners that are kept have the recovery behind them that begins now
      obtain ⟨blames, lt, -⟩ := h.owners owner (List.mem_of_mem_drop owns)
      refine ⟨blames, Nat.lt_succ_of_lt lt, fun last => ?_⟩
      exact absurd (Nat.succ.inj last) (Nat.ne_of_lt lt)

end Attributed

namespace Machine
variable {machine : Machine α} {source : TokenStream α} {origins : Origins α} {c c' : Configuration α}

theorem Attributes.attributed (h : machine.Attributes source origins c) : Attributed machine source origins c := by
  induction h with
  | start => exact .start _
  | step h running ih => exact ih.step h.reaches running

/-- What a reduction leaves. -/
theorem exists_of_reduces {number p : Nat} {production : Production α}
    (running : (machine.step source c).value = .running c')
    (action : machine.action (topState c.stack) c.lookahead.terminal = .reduce number)
    (reduces : machine.Reduces number p production) : ∃ next, c' = { c with
      stack := ⟨next, machine.reduceValue c production.action (topState (c.stack.drop production.symbols.length))
        ((c.stack.take production.symbols.length).map (·.value)).reverse⟩ ::
          c.stack.drop production.symbols.length } := by
  cases step_of_running running with
  | shift other | shiftError other | discard other | recover other => cases action.symm.trans other
  | reduce other hreduction haction =>
    cases action.symm.trans other
    cases reduces.reduction.symm.trans hreduction
    cases reduces.action.symm.trans haction
    exact ⟨_, rfl⟩

end Machine

/-! ## Errors and the productions that are given them -/

/-- What is known of the error that a production is given. -/
structure Origins.Gives (machine : Machine α) (origins : Origins α) (c : Configuration α) (symbols : List Symbol)
    (e : SyntaxError) : Prop where
  latest : ∀ last, origins.latest = some last → e = machine.detected last ∧ machine.Detects last ∧
    last.errors + 1 = c.errors
  none : origins.latest = none → c.errors = 0
  /-- It is that of an error token on the right-hand side if there has been no recovery since the one that put the error
  token there. -/
  own : ∀ (i : Nat) owner, symbols[i]? = some (.terminal errorTerminal) →
    (origins.owners.take symbols.length).reverse[i]? = some (some owner) →
    machine.Detects owner ∧ owner.errors < c.errors ∧ (owner.errors + 1 = c.errors → e = machine.detected owner)

theorem Attributed.gives {machine : Machine α} {source : TokenStream α} {origins : Origins α} {c : Configuration α}
    (h : Attributed machine source origins c) (symbols : List Symbol) (fallback : SyntaxError) :
    origins.Gives machine c symbols (c.pending.getD fallback) := by
  have given {last : Configuration α} (latest : origins.latest = some last) :
      c.pending.getD fallback = machine.detected last := by
    rw [h.pending_eq, latest, Option.map_some, Option.getD_some]
  refine ⟨fun last latest => ⟨given latest, (h.latest last latest).detects, ?_⟩, fun none => ?_,
    fun i owner _ owns => ?_⟩
  · rw [h.errors_eq, latest]
    rfl
  · rw [h.errors_eq, none]
    rfl
  · obtain ⟨blames, lt, last⟩ :=
      h.owners owner (List.mem_of_mem_take (List.mem_reverse.mp (List.mem_of_getElem? owns)))
    exact ⟨blames.detects, lt, fun latest => given (last latest)⟩

omit [Inhabited α] in
/-- Whether what a step pushes in the place of the symbols of a production is made of them and an error. -/
def Receives (c c' : Configuration α) (production : Production α) (f : SyntaxError → List α → α) (e : SyntaxError) :
    Prop :=
  ∃ next, c'.stack = ⟨next, f e ((c.stack.take production.symbols.length).map (·.value)).reverse⟩ ::
    c.stack.drop production.symbols.length

/-- A production that asks for an error receives one of which this is known. -/
theorem Attributed.exists_receives {machine : Machine α} {source : TokenStream α} {origins : Origins α}
    {c c' : Configuration α} {number p : Nat} {production : Production α} {f : SyntaxError → List α → α}
    (h : Attributed machine source origins c) (running : (machine.step source c).value = .running c')
    (action : machine.action (topState c.stack) c.lookahead.terminal = .reduce number)
    (reduces : machine.Reduces number p production) (asks : production.action = .ofError f) :
    ∃ e, Receives c c' production f e ∧ origins.Gives machine c production.symbols e := by
  obtain ⟨next, rfl⟩ := Machine.exists_of_reduces running action reduces
  let uncovered := topState (c.stack.drop production.symbols.length)
  refine ⟨c.pending.getD (machine.fallbackError uncovered), ⟨next, ?_⟩, h.gives _ _⟩
  rw [asks]
  rfl

/-! ## A production that is given the error of another -/

section
variable {grammar : Grammar α} {mergeCores : Bool} {machine : Machine α} {c : Configuration α}
  {leaves : List (Token α)} {word : List Symbol} {p : Nat} {production : Production α}

/-- What is valid in front of the lookahead is reduced. -/
theorem Machine.Decides.exists_reduction (decides : machine.Decides grammar mergeCores) (source : TokenStream α)
    (supported : Supported grammar (grammar.cfg.collection mergeCores) c.stack leaves)
    (along : Along (grammar.cfg.collection mergeCores) c.stack word)
    (known : c.lookahead.terminal < machine.table.actions.terminalCount)
    (hp : grammar.productions[p]? = some production)
    (valid : grammar.cfg.Valid word ⟨p, production.symbols.length⟩ c.lookahead.terminal) : ∃ number stack,
      machine.action (topState c.stack) c.lookahead.terminal = .reduce number ∧
      machine.Reduces number p production ∧ (machine.step source c).value = .running { c with stack } ∧
      Along (grammar.cfg.collection mergeCores) stack
        (.nonTerminal production.result :: word.drop production.symbols.length) := by
  obtain ⟨wf, automaton, drives, fully⟩ := id decides.realizes
  obtain ⟨state, top, follows⟩ := along.follows automaton
  have allows := follows.allows _ _ valid
  have heeds : machine.Heeds grammar _ := decides.allows
  obtain ⟨number, action, reduces⟩ := fully.reduce _ _ p state production top hp allows
  obtain ⟨stack, word', running, -, along', step⟩ :=
    heeds.exists_reduction source wf automaton drives supported along known action
  cases step.unique decides.agree (.intro along.stateAfter_eq top (Grammar.getElem?_rules hp) allows)
  exact ⟨number, stack, action, reduces, running, along'⟩

end

namespace nested

/-- The production of an error, the letter x and another error. -/
def outer : Production String := ⟨0, [.terminal 1, .terminal 2, .nonTerminal 1], .ofError fun e _ => e.found, none⟩

/-- The production of the other error. -/
def inner : Production String := ⟨1, [.terminal 1], .ofValues fun _ => "", none⟩

theorem valid_first : cfg.Valid [] ⟨0, 0⟩ endTerminal := .pass .start rfl (p := 0) (by decide) (by decide)

theorem valid_behind : cfg.Valid [.terminal 2, .terminal 1] ⟨0, 2⟩ endTerminal :=
  (valid_first.advance rfl).advance rfl

theorem valid_inner : cfg.Valid [.terminal 1, .terminal 2, .terminal 1] ⟨1, 1⟩ endTerminal := by
  have begins : cfg.Valid [.terminal 2, .terminal 1] ⟨1, 0⟩ endTerminal :=
    .pass valid_behind rfl (by decide) (by decide)
  exact begins.advance rfl

theorem valid_outer : cfg.Valid [.nonTerminal 1, .terminal 2, .terminal 1] ⟨0, 3⟩ endTerminal :=
  valid_behind.advance rfl

/-- Both productions are reduced in front of the end of the input, the outer one with both errors on record. -/
theorem exists_outer {parser : Parser String} (compiled : (nested.toParser {}).run.value = .ok parser) :
    ∃ i j c c' number, parser.machine.Attributes source
        ⟨[none, none, some first], some (letterTaken parser.machine i j)⟩ c ∧
      (parser.machine.step source c).value = .running c' ∧
      parser.machine.action (topState c.stack) c.lookahead.terminal = .reduce number ∧
      parser.machine.Reduces number 0 outer ∧
      c'.lookahead = stop ∧ c'.errors = 2 ∧ c'.read = 2 ∧ Along (cfg.collection true) c'.stack [.nonTerminal 0] := by
  have decides := Grammar.decides_of_toParser declared hasNoPrecedence compiled
  obtain ⟨wf, automaton, drives, -⟩ := id decides.realizes
  obtain ⟨i, j, k, turns, along⟩ := exists_turns compiled
  -- the other error token is taken behind the second recovery
  have begun : parser.machine.Attributes source ⟨[none, some first], some (letterTaken parser.machine i j)⟩
      (otherBegun parser.machine i j) := by
    have records := turns.records_otherBegun {} (Origins.next parser.machine)
    rw [Origins.next_recover (c := first) turns.rejects_letter rfl,
      Origins.next_takeError (c := parser.machine.recovery first []) turns.takes_error rfl,
      Origins.next_take (c := errorTaken parser.machine i) turns.takes_letter rfl,
      Origins.next_recover (c := letterTaken parser.machine i j) turns.rejects_stop rfl] at records
    exact records
  have taken : parser.machine.Attributes source
      ⟨[some (letterTaken parser.machine i j), none, some first], some (letterTaken parser.machine i j)⟩
      (otherTaken parser.machine i j k) := by
    have records := begun.step turns.running_other
    rw [Origins.next_takeError (c := otherBegun parser.machine i j) turns.takes_other rfl] at records
    exact records
  have known : endTerminal < parser.machine.table.actions.terminalCount :=
    turns.terminalCount_eq ▸ (by decide : endTerminal < 3)
  obtain ⟨leaves, supported⟩ := taken.reaches.exists_supported nested wf automaton drives
  obtain ⟨m, stack, action, reduces, running, along⟩ :=
    decides.exists_reduction source supported along known (rfl : nested.productions[1]? = some inner) valid_inner
  have reduced := taken.step running
  rw [Origins.next_reduce action reduces.reduction] at reduced
  obtain ⟨leaves, supported⟩ := reduced.reaches.exists_supported nested wf automaton drives
  obtain ⟨n, stack', action', reduces', running', along⟩ :=
    decides.exists_reduction source supported along known (rfl : nested.productions[0]? = some outer) valid_outer
  exact ⟨i, j, _, _, n, reduced, running', action', reduces', rfl, rfl, rfl, along⟩

theorem terminalNames_eq {parser : Parser String} (compiled : (nested.toParser {}).run.value = .ok parser) :
    parser.machine.terminalNames = ["$end", "error", "x"] := by
  obtain ⟨table, -, machine⟩ := Grammar.table_of_toParser compiled
  rw [machine]
  rfl

end nested

/-! ## Parsers -/

end TableParsing
