import TableParsing.Proofs.Lr.Following
import TableParsing.Proofs.Lr.Reached
import TableParsing.Proofs.Parser.Correctness
import TableParsing.Proofs.Parser.Driver
import TableParsing.Proofs.Parser.Outcome
import TableParsing.Proofs.Table.Chart

/-! # Recoveries that come to something

A recovery goes back on the stack to the topmost state that has an action for the error terminal.  That action need not
take the error token.  If it is a reduction, others follow, and it is their last state that takes the error token or
rejects it.  **It takes the error token exactly if the error terminal may follow the symbols that the stack was unwound
to** (`Machine.Decides.recovers`).

Canonical states reduce only in front of what may follow, so their recoveries do not come to nothing.  Merged states
also reduce in front of what may follow other words.  So a recovery may unwind to a state that cannot go on, although
there is one below it that could (`merging_misleads`). -/

namespace TableParsing

open Collection (State)

variable {α : Type} [Inhabited α]

theorem error_ne_end : errorTerminal ≠ endTerminal := by decide

namespace Machine
variable {machine : Machine α} {source : TokenStream α} {c : Configuration α}

/-- Whether a syntax error is detected outside of a recovery. -/
structure Detects (machine : Machine α) (c : Configuration α) : Prop where
  known : c.lookahead.terminal < machine.table.actions.terminalCount
  action : machine.action (topState c.stack) c.lookahead.terminal = .error
  deferred : c.deferred = none
  recovering : c.recovering = false

/-- The error that is detected. -/
def detected (machine : Machine α) (c : Configuration α) : SyntaxError :=
  machine.syntaxError (topState c.stack) c.lookahead

/-- Whether a run goes on to take the error token in front of a rejected token, which comes up again. -/
def ShiftsError (machine : Machine α) (source : TokenStream α) (c : Configuration α) (rejected : Token α) : Prop :=
  ∃ n before after next, machine.Runs source n c before ∧ before.lookahead = errorToken rejected ∧
    machine.action (topState before.stack) errorTerminal = .shift next ∧
    (machine.step source before).value = .running after ∧ after.stack = ⟨next, default⟩ :: before.stack ∧
    after.lookahead = rejected ∧ after.recovering = true

/-- Whether a run goes on to return an error. -/
def FailsWith (machine : Machine α) (source : TokenStream α) (c : Configuration α) (e : SyntaxError) : Prop :=
  ∃ n last, machine.Runs source n c last ∧ (machine.step source last).value = .finished (.error (.syntaxError e))

omit [Inhabited α] in
/-- The stack is unwound to its topmost state with an action for the error terminal, if there is one. -/
theorem exists_unwind? {stack : List (Entry α)} {i : Nat} (hi : i ∈ statesOf stack)
    (acts : machine.action i errorTerminal ≠ .error) :
    ∃ kept, machine.unwind? stack = some kept ∧ machine.action (topState kept) errorTerminal ≠ .error := by
  induction stack with
  | nil =>
    cases List.mem_singleton.mp hi
    exact ⟨[], if_neg acts, acts⟩
  | cons entry stack ih =>
    by_cases idle : machine.action entry.state errorTerminal = .error
    · have below : i ∈ statesOf stack :=
        (List.mem_cons.mp hi).resolve_left fun same => acts (same ▸ idle)
      obtain ⟨kept, unwound, acts⟩ := ih below
      exact ⟨kept, (if_pos idle).trans unwound, acts⟩
    · exact ⟨entry :: stack, if_neg idle, idle⟩

omit [Inhabited α] in
/-- Where the topmost state has an action for the error terminal nothing is unwound. -/
theorem unwind?_of_acts {stack : List (Entry α)} (acts : machine.action (topState stack) errorTerminal ≠ .error) :
    machine.unwind? stack = some stack := by
  cases stack with
  | nil => exact if_neg acts
  | cons => exact if_neg acts

section Steps
variable {c' last : Configuration α} {rejected : Token α} {e : SyntaxError} {n : Nat}

variable (rejected) in
/-- A step that does not take the error token changes nothing about whether it is taken. -/
theorem shiftsError_iff_of_step (running : (machine.step source c).value = .running c')
    (turned : c.lookahead = errorToken rejected →
      ∀ next, machine.action (topState c.stack) errorTerminal ≠ .shift next) :
    machine.ShiftsError source c rejected ↔ machine.ShiftsError source c' rejected := by
  constructor
  · rintro ⟨n, before, after, next, runs, lookahead, action, rest⟩
    cases runs with
    | refl => exact absurd action (turned lookahead next)
    | step running' runs =>
      cases running.symm.trans running'
      exact ⟨_, before, after, next, runs, lookahead, action, rest⟩
  · rintro ⟨n, before, after, next, runs, rest⟩
    exact ⟨n + 1, before, after, next, .step running runs, rest⟩

theorem not_shiftsError_of_finished {result : Except ParseError α}
    (finished : (machine.step source c).value = .finished result) : ¬machine.ShiftsError source c rejected := by
  rintro ⟨n, before, after, next, runs, -, -, running, -⟩
  cases runs with
  | refl => cases finished.symm.trans running
  | step running' => cases finished.symm.trans running'

theorem FailsWith.of_step (running : (machine.step source c).value = .running c')
    (h : machine.FailsWith source c' e) : machine.FailsWith source c e := by
  obtain ⟨n, last, runs, finish⟩ := h
  exact ⟨n + 1, last, .step running runs, finish⟩

/-- The configuration in which a recovery has begun. -/
def recovery (machine : Machine α) (c : Configuration α) (stack : List (Entry α)) : Configuration α := { c with
  stack
  lookahead := errorToken c.lookahead
  deferred := some c.lookahead
  pending := some (machine.detected c)
  recovering := false
  errors := c.errors + 1 }

variable (source) in
/-- **A recovery begins**, if it is allowed and the stack can be unwound. -/
theorem Detects.running (h : machine.Detects c) (recovers : machine.options.errorRecovery = true)
    (allowed : c.errors < machine.options.maxErrors) {stack : List (Entry α)}
    (unwound : machine.unwind? c.stack = some stack) :
    (machine.step source c).value = .running (machine.recovery c stack) := by
  rw [step_eq h.known, h.action]
  simp only [reject, h.deferred, h.recovering, recover, recovers, allowed, unwound, decide_true,
    Bool.and_self, if_true, Option.isSome_none, Bool.false_eq_true, if_false]
  rfl

/-- Taking the error token brings the rejected one up again. -/
theorem running_shiftError {next : Nat} (lookahead : c.lookahead = errorToken rejected)
    (deferred : c.deferred = some rejected) (known : errorTerminal < machine.table.actions.terminalCount)
    (action : machine.action (topState c.stack) errorTerminal = .shift next) :
    (machine.step source c).value = .running { c with
      stack := ⟨next, default⟩ :: c.stack
      lookahead := rejected
      deferred := none
      recovering := true } := by
  have terminal : c.lookahead.terminal = errorTerminal := by rw [lookahead]; rfl
  rw [step_eq (terminal ▸ known), terminal, action, value_shift, deferred]
  simp only [lookahead, errorToken]

variable (source) in
/-- An error token that is rejected fails with the error of the recovery. -/
theorem finished_of_rejected (lookahead : c.lookahead = errorToken rejected) (deferred : c.deferred = some rejected)
    (pending : c.pending = some e) (known : errorTerminal < machine.table.actions.terminalCount)
    (action : machine.action (topState c.stack) errorTerminal = .error) :
    (machine.step source c).value = .finished (.error (.syntaxError e)) := by
  have terminal : c.lookahead.terminal = errorTerminal := by rw [lookahead]; rfl
  rw [step_eq (terminal ▸ known), terminal, action, reject, deferred, failure, pending]
  rfl

end Steps

/-! ## What a recovery comes to -/

namespace Decides
variable {grammar : Grammar α} {mergeCores : Bool} {word : List Symbol} {t i : Nat}
  (decides : machine.Decides grammar mergeCores)
include decides

omit [Inhabited α] in
/-- What a machine takes may be taken. -/
theorem acts_of_shift {next : Nat} (after : Cfg.stateAfter (grammar.cfg.collection mergeCores) word = some i)
    (action : machine.action i t = .shift next) : grammar.cfg.Acts (grammar.cfg.collection mergeCores) t word := by
  obtain ⟨state, hs, leads⟩ := decides.realizes.drives.shift _ _ _ action
  exact ⟨i, state, after, hs, .inl ⟨next, leads⟩⟩

omit [Inhabited α] in
/-- Where nothing is asked for a machine has no action. -/
theorem error_of_none {state : State} (hs : (grammar.cfg.collection mergeCores)[i]? = some state)
    (none : ∀ d, (t, d) ∉ grammar.cfg.demands state) : machine.action i t = .error := by
  cases action : machine.action i t with
  | shift next =>
    obtain ⟨state', hs', leads⟩ := decides.realizes.drives.shift _ _ _ action
    cases hs.symm.trans hs'
    exact absurd (Cfg.shift_mem_of_lookup leads) (none _)
  | reduce number =>
    obtain ⟨state', p, production, hs', hp, allows, -⟩ := decides.allows _ _ _ action
    cases hs.symm.trans hs'
    exact absurd (Cfg.reduce_mem_of_allows (Grammar.getElem?_rules hp) allows) (none _)
  | accept =>
    obtain ⟨rfl, state', hs', has⟩ := decides.realizes.drives.accept _ _ action
    cases hs.symm.trans hs'
    exact absurd (Cfg.accept_mem_of_has has) (none _)
  | error => rfl

omit [Inhabited α] in
/-- Where a machine has no action nothing is come to. -/
theorem not_comesTo_of_error (after : Cfg.stateAfter (grammar.cfg.collection mergeCores) word = some i)
    (action : machine.action i t = .error) : ¬grammar.cfg.ComesTo (grammar.cfg.collection mergeCores) t word := by
  have idle {state : State} {d : Demand} (hs : (grammar.cfg.collection mergeCores)[i]? = some state)
      (hd : (t, d) ∈ grammar.cfg.demands state) : False := by
    have done := decides.does hs hd
    cases d with
    | shift target => exact nomatch action.symm.trans done
    | reduce p =>
      obtain ⟨number, production, done, -⟩ := done
      exact nomatch action.symm.trans done
    | accept => exact nomatch action.symm.trans done
  rintro ⟨last, reduces, acts⟩
  rcases Relation.ReflTransGen.cases_head reduces with rfl | ⟨next, step, -⟩
  · obtain ⟨j, state, after', hs, ⟨target, leads⟩ | ⟨rfl, has⟩⟩ := acts
    · cases after.symm.trans after'
      exact idle hs (Cfg.shift_mem_of_lookup leads)
    · cases after.symm.trans after'
      exact idle hs (Cfg.accept_mem_of_has has)
  · obtain ⟨after', hs, hp, allows⟩ := step
    cases after.symm.trans after'
    exact idle hs (Cfg.reduce_mem_of_allows hp allows)

omit [Inhabited α] in
/-- A reduction neither brings a terminal nearer than it was nor loses it. -/
theorem comesTo_iff_of_reduces {next : List Symbol}
    (step : grammar.cfg.Reduces (grammar.cfg.collection mergeCores) t word next) :
    grammar.cfg.ComesTo (grammar.cfg.collection mergeCores) t word ↔
      grammar.cfg.ComesTo (grammar.cfg.collection mergeCores) t next := by
  constructor
  · rintro ⟨last, reduces, acts⟩
    rcases Relation.ReflTransGen.cases_head reduces with rfl | ⟨other, step', rest⟩
    · exact absurd step (acts.not_reduces decides.agree)
    · cases step.unique decides.agree step'
      exact ⟨last, rest, acts⟩
  · exact .head (.single step)

variable (source) in
/-- **A recovery takes the error token exactly if reductions come to where it is taken**, and fails otherwise. -/
theorem recovers {rejected : Token α} {e : SyntaxError} {leaves : List (Token α)}
    (supported : Supported grammar (grammar.cfg.collection mergeCores) c.stack leaves)
    (along : Along (grammar.cfg.collection mergeCores) c.stack word) (lookahead : c.lookahead = errorToken rejected)
    (deferred : c.deferred = some rejected) (pending : c.pending = some e)
    (known : errorTerminal < machine.table.actions.terminalCount) :
    (machine.ShiftsError source c rejected ↔
      grammar.cfg.ComesTo (grammar.cfg.collection mergeCores) errorTerminal word) ∧
    (¬machine.ShiftsError source c rejected → machine.FailsWith source c e) := by
  obtain ⟨wf, automaton, drives, -⟩ := decides.realizes
  have heeds : machine.Heeds grammar _ := decides.allows
  have halts := Cfg.halts wf (Cfg.undisputed_of_agree decides.agree) (t := errorTerminal) word
  induction halts generalizing c with
  | intro word _ ih =>
    have terminal : c.lookahead.terminal = errorTerminal := by rw [lookahead]; rfl
    cases action : machine.action (topState c.stack) errorTerminal with
    | shift next =>
      have shifts : machine.ShiftsError source c rejected := ⟨0, c, _, next, .refl c, lookahead, action,
        running_shiftError lookahead deferred known action, rfl, rfl, rfl⟩
      exact ⟨iff_of_true shifts ⟨word, .refl, decides.acts_of_shift along.stateAfter_eq action⟩, absurd shifts⟩
    | reduce number =>
      obtain ⟨stack, word', running, supported', along', step⟩ := heeds.exists_reduction source wf automaton
        drives supported along (terminal.symm ▸ known) (terminal.symm ▸ action)
      rw [terminal] at step
      have same := shiftsError_iff_of_step rejected running fun _ next shift =>
        nomatch action.symm.trans shift
      obtain ⟨iff, fails⟩ := @ih word' step { c with stack } supported' along' lookahead deferred pending
      rw [same, decides.comesTo_iff_of_reduces step]
      exact ⟨iff, fun none => (fails none).of_step running⟩
    | accept =>
      obtain ⟨atEnd, -⟩ := drives.accept _ _ action
      cases atEnd
    | error =>
      have finished := finished_of_rejected source lookahead deferred pending known action
      exact ⟨iff_of_false (not_shiftsError_of_finished finished)
        (decides.not_comesTo_of_error along.stateAfter_eq action), fun _ => ⟨0, c, .refl c, finished⟩⟩

omit [Inhabited α] in
/-- A canonical state with an action for a terminal has it in front of what may follow. -/
theorem mayFollow_of_canonical (canonical : mergeCores = false) (inside : t ≠ endTerminal)
    (after : Cfg.stateAfter (grammar.cfg.collection mergeCores) word = some i) (acts : machine.action i t ≠ .error) :
    grammar.cfg.MayFollow word t := by
  obtain ⟨wf, automaton, drives, -⟩ := decides.realizes
  cases action : machine.action i t with
  | shift next => exact (decides.acts_of_shift after action).mayFollow automaton inside
  | reduce number =>
    obtain ⟨state, p, production, hs, hp, allows, -⟩ := decides.allows _ _ _ action
    have step := Cfg.Reduces.intro after hs (Grammar.getElem?_rules hp) allows
    subst canonical
    exact step.mayFollow_of_canonical wf
  | accept => exact absurd (drives.accept _ _ action).1 inside
  | error => exact absurd action acts

/-- **What a recovery comes to is told by the word that the stack is unwound to.** -/
theorem recovers_of_detects (reaches : machine.Reaches source c) (detects : machine.Detects c)
    (recovery : machine.options.errorRecovery = true) (allowed : c.errors < machine.options.maxErrors)
    (shiftable : ∃ i ∈ c.states, ∃ next, machine.action i errorTerminal = .shift next) :
    ∃ kept, machine.unwind? c.stack = some kept ∧ machine.action (topState kept) errorTerminal ≠ .error ∧
      (∃ word, Along (grammar.cfg.collection mergeCores) kept word) ∧
      (∀ word, Along (grammar.cfg.collection mergeCores) kept word →
        (machine.ShiftsError source c c.lookahead ↔ grammar.cfg.MayFollow word errorTerminal)) ∧
      (¬machine.ShiftsError source c c.lookahead → machine.FailsWith source c (machine.detected c)) := by
  obtain ⟨wf, automaton, drives, -⟩ := decides.realizes
  obtain ⟨i, hi, next, action⟩ := shiftable
  obtain ⟨kept, unwound, acts⟩ := exists_unwind? hi fun idle => nomatch action.symm.trans idle
  have known : errorTerminal < machine.table.actions.terminalCount := by
    obtain ⟨state, hs, leads⟩ := drives.shift _ _ _ action
    exact drives.terminalCount_eq.symm ▸ automaton.lt_of_lookup wf hs leads
  have running := detects.running source recovery allowed unwound
  obtain ⟨leaves, supported⟩ := (reaches.step running).exists_supported grammar wf automaton drives
  have same := shiftsError_iff_of_step c.lookahead running fun lookahead next shift => by
    have idle := detects.action
    rw [lookahead] at idle
    exact nomatch idle.symm.trans shift
  have comes {word : List Symbol} (along : Along (grammar.cfg.collection mergeCores) kept word) :=
    decides.recovers source (c := machine.recovery c kept) supported along rfl rfl rfl known
  obtain ⟨word, along, -⟩ := supported.exists_word
  refine ⟨kept, unwound, acts, ⟨word, along⟩, fun word along => ?_, fun none => ?_⟩
  · rw [same, (comes along).1, Cfg.comesTo_iff_mayFollow wf automaton error_ne_end]
  · exact ((comes along).2 (same.not.mp none)).of_step running

end Decides
end Machine

/-! ## A recovery that is misled -/

/-- The grammar of the texts pkq and rk, the latter with an error behind it, and of an error alone.  Behind the letter k
the letter q follows in one text, and an error in the other. -/
def misled : Grammar Unit where
  terminals := [⟨"$end", .reserved, none⟩, ⟨"error", .reserved, none⟩, ⟨"p", .literal "p", none⟩,
    ⟨"q", .literal "q", none⟩, ⟨"r", .literal "r", none⟩, ⟨"k", .literal "k", none⟩]
  nonTerminals := ["s", "a"]
  productions := [⟨0, [.terminal 2, .nonTerminal 1, .terminal 3], .ofValues fun _ => (), none⟩,
    ⟨0, [.terminal 4, .nonTerminal 1, .terminal 1], .ofValues fun _ => (), none⟩,
    ⟨0, [.terminal 1], .ofValues fun _ => (), none⟩, ⟨1, [.terminal 5], .ofValues fun _ => (), none⟩]
  start := 0
  ignored := []
  lexerOptions := {}

namespace misled

/-- The draft of the grammar. -/
def draft : GrammarDraft Unit :=
  let draft := ((({} : GrammarDraft Unit).nonTerminal "s").1.nonTerminal "a").1
  let draft := (draft.production 0 [.literal "p", .nonTerminal 1, .literal "q"] (.ofValues fun _ => ())).1
  let draft := (draft.production 0 [.literal "r", .nonTerminal 1, .terminal 1] (.ofValues fun _ => ())).1
  let draft := (draft.production 0 [.terminal 1] (.ofValues fun _ => ())).1
  let draft := (draft.production 1 [.literal "k"] (.ofValues fun _ => ())).1
  { draft with start := some 0 }

theorem declared : misled.Declared :=
  ⟨draft, .start (.production (.production (.production (.production (.nonTerminal (.nonTerminal .empty _) _)
    _ _ _) _ _ _) _ _ _) _ _ _) _, rfl⟩

theorem hasNoPrecedence : misled.HasNoPrecedence := by decide

/-- The grammar without names and actions. -/
def cfg : Cfg where
  terminalCount := 6
  nonTerminalCount := 2
  rules := #[⟨0, [.terminal 2, .nonTerminal 1, .terminal 3]⟩, ⟨0, [.terminal 4, .nonTerminal 1, .terminal 1]⟩,
    ⟨0, [.terminal 1]⟩, ⟨1, [.terminal 5]⟩]
  start := 0

/-- What the words of the grammar lead to. -/
def chart : Chart where
  rows := [[(⟨4, 0⟩, [0]), (⟨0, 0⟩, [0]), (⟨1, 0⟩, [0]), (⟨2, 0⟩, [0])], [(⟨4, 1⟩, [0])],
    [(⟨0, 1⟩, [0]), (⟨3, 0⟩, [3])], [(⟨1, 1⟩, [0]), (⟨3, 0⟩, [1])], [(⟨2, 1⟩, [0])], [(⟨0, 2⟩, [0])],
    [(⟨1, 2⟩, [0])], [(⟨3, 1⟩, [1, 3])], [(⟨0, 3⟩, [0])], [(⟨1, 3⟩, [0])]]
  moves := [((0, .nonTerminal 0), 1), ((0, .terminal 2), 2), ((0, .terminal 4), 3), ((0, .terminal 1), 4),
    ((2, .nonTerminal 1), 5), ((2, .terminal 5), 7), ((3, .nonTerminal 1), 6), ((3, .terminal 5), 7),
    ((5, .terminal 3), 8), ((6, .terminal 1), 9)]

theorem bounds_chart : chart.bounds cfg := by decide

theorem wellFormed : cfg.WellFormed :=
  have declared : misled.Declared := declared
  declared.wellFormed

theorem isLiteral : misled.IsLiteral := ⟨rfl, by decide⟩

theorem exists_toParser (options : ParserOptions) : ∃ parser, (misled.toParser options).run.value = .ok parser := by
  have settled : ∀ place < chart.rows.length, ∀ t < 6, chart.settled misled place t := by decide
  exact isLiteral.exists_toParser (Chart.exists_table misled bounds_chart wellFormed settled options.mergeCores)

/-! ### Behind the letters p and k -/

theorem viable_first : cfg.Viable [] ⟨0, 0⟩ := .expand .start rfl (by decide)

theorem viable_second : cfg.Viable [.terminal 2] ⟨3, 0⟩ := .expand (viable_first.advance rfl) rfl (by decide)

theorem valid_other : cfg.Valid [.terminal 4] ⟨3, 0⟩ errorTerminal := by
  have begins : cfg.Viable [] ⟨1, 0⟩ := .expand .start rfl (by decide)
  exact .first (begins.advance rfl) rfl (by decide) (by decide)

/-- The letter k brings one core behind either letter. -/
theorem kernelCore_iff {word : List Symbol} {core : Core} (viable : cfg.Viable word ⟨3, 0⟩)
    (place : ∃ place ∈ [2, 3], chart.placeAfter word = some place) :
    cfg.KernelCore (.terminal 5 :: word) core ↔ core = ⟨3, 1⟩ := by
  constructor
  · rintro ⟨old, hold, next, rfl⟩
    obtain ⟨place, within, there⟩ := place
    obtain ⟨other, after, ts, hm⟩ := Chart.exists_has (Chart.closes_of_bounds bounds_chart) hold
    cases there.symm.trans after
    have one : ∀ place ∈ [2, 3], ∀ entry ∈ chart.row place, cfg.nextSymbol? entry.1 = some (.terminal 5) →
        entry.1 = ⟨3, 0⟩ := by decide
    exact congrArg Core.advance (one _ within _ hm next)
  · rintro rfl
    exact ⟨⟨3, 0⟩, viable, rfl, rfl⟩

/-- So merged states allow behind the letter p what is valid behind the letter r. -/
theorem allows_merged {i : Nat} {state : State}
    (after : Cfg.stateAfter (cfg.collection true) [.terminal 5, .terminal 2] = some i)
    (hs : (cfg.collection true)[i]? = some state) : state.items.Allows ⟨3, 1⟩ errorTerminal := by
  have alike : cfg.Alike true [.terminal 5, .terminal 2] [.terminal 5, .terminal 4] := by
    refine ⟨fun core => ?_, nofun⟩
    rw [kernelCore_iff viable_second ⟨2, by decide, rfl⟩, kernelCore_iff valid_other.viable ⟨3, by decide, rfl⟩]
  exact (Cfg.allows_iff_exists_valid wellFormed hs).mpr
    ⟨_, alike.stateAfter_eq wellFormed after, valid_other.advance rfl⟩

/-- The text pk, and the end of the input behind it. -/
def source : TokenStream Unit := .ofList [.ok ⟨2, "p", ⟨0, 1⟩, ()⟩, .ok ⟨5, "k", ⟨1, 2⟩, ()⟩]

/-- The end of the input. -/
def stop : Token Unit := ⟨endTerminal, "", ⟨0, 0⟩, ()⟩

section Run
variable {parser : Parser Unit} {options : ParserOptions} {stack : List (Entry Unit)}
  (compiled : (misled.toParser options).run.value = .ok parser)
include compiled

/-- Both letters are shifted. -/
theorem exists_reaches : ∃ stack, parser.machine.Reaches source (.clean stack stop 3) ∧
    Along (cfg.collection options.mergeCores) stack [.terminal 5, .terminal 2] := by
  have realizes := Grammar.realizes_of_toParser declared hasNoPrecedence compiled
  have second : (source 1).value = .ok ⟨5, "k", ⟨1, 2⟩, ()⟩ := rfl
  have third : (source 2).value = .ok stop := rfl
  obtain ⟨stack, running, along⟩ := realizes.exists_shift ⟨2, "p", ⟨0, 1⟩, ()⟩ .bottom viable_first rfl second
  obtain ⟨stack', running', along'⟩ := realizes.exists_shift ⟨5, "k", ⟨1, 2⟩, ()⟩ along viable_second rfl third
  exact ⟨stack', .step (.step (.start rfl) running) running', along'⟩

/-- The end of the input is rejected behind them. -/
theorem detects (along : Along (cfg.collection options.mergeCores) stack [.terminal 5, .terminal 2]) :
    parser.machine.Detects (.clean stack stop 3) := by
  have decides := Grammar.decides_of_toParser declared hasNoPrecedence compiled
  refine ⟨?_, ?_, rfl, rfl⟩
  · rw [decides.realizes.drives.terminalCount_eq]
    exact (by decide : 0 < 6)
  · have automaton : cfg.IsAutomaton (cfg.collection options.mergeCores) := decides.realizes.isAutomaton
    obtain ⟨state, top, follows⟩ := along.follows automaton
    obtain ⟨place, there, describes⟩ := Chart.exists_describes_of_spells bounds_chart wellFormed top follows.spells
    cases there
    refine decides.error_of_none top fun d hd => ?_
    have none : ∀ e ∈ chart.demandsAt cfg 7, e.1 ≠ 0 := by decide
    exact none _ (Chart.mem_demandsAt wellFormed top describes hd) rfl

/-- The first state shifts the error token. -/
theorem exists_shiftable {c : Configuration Unit} :
    ∃ i ∈ c.states, ∃ next, parser.machine.action i errorTerminal = .shift next := by
  have decides := Grammar.decides_of_toParser declared hasNoPrecedence compiled
  have after : Cfg.stateAfter (cfg.collection options.mergeCores) [] = some 0 := rfl
  obtain ⟨state, hs, follows⟩ := decides.realizes.isAutomaton.follows after
  have viable : cfg.Viable [] ⟨2, 0⟩ := .expand .start rfl (by decide)
  obtain ⟨target, leads⟩ := (decides.realizes.isAutomaton.exists_lookup_iff hs follows.spells).mpr ⟨_, viable, rfl⟩
  exact ⟨0, List.mem_append_right _ List.mem_cons_self, target, decides.does hs (Cfg.shift_mem_of_lookup leads)⟩

/-- Merged states reduce the letter k in front of an error. -/
theorem reduces (merged : options.mergeCores = true)
    (along : Along (cfg.collection options.mergeCores) stack [.terminal 5, .terminal 2]) :
    cfg.Reduces (cfg.collection options.mergeCores) errorTerminal [.terminal 5, .terminal 2]
        [.nonTerminal 1, .terminal 2] ∧ parser.machine.action (topState stack) errorTerminal ≠ .error := by
  have decides := Grammar.decides_of_toParser declared hasNoPrecedence compiled
  have automaton : cfg.IsAutomaton (cfg.collection options.mergeCores) := decides.realizes.isAutomaton
  obtain ⟨state, top, -⟩ := along.follows automaton
  have allows : state.items.Allows ⟨3, 1⟩ errorTerminal := by
    rw [merged] at top along
    exact allows_merged along.stateAfter_eq top
  have there : cfg.rules[3]? = some ⟨1, [.terminal 5]⟩ := rfl
  refine ⟨.intro along.stateAfter_eq top there allows, fun idle => ?_⟩
  obtain ⟨number, -, action, -⟩ := decides.does top (Cfg.reduce_mem_of_allows there allows)
  exact nomatch idle.symm.trans action

/-- But behind what the letter k is reduced to there may be none. -/
theorem not_mayFollow (merged : options.mergeCores = true)
    (along : Along (cfg.collection options.mergeCores) stack [.terminal 5, .terminal 2]) :
    ¬cfg.MayFollow [.terminal 5, .terminal 2] errorTerminal := by
  have decides := Grammar.decides_of_toParser declared hasNoPrecedence compiled
  have automaton := decides.realizes.isAutomaton
  have step := (reduces compiled merged along).1
  rw [← Cfg.comesTo_iff_mayFollow wellFormed automaton error_ne_end]
  refine (decides.comesTo_iff_of_reduces step).not.mpr ?_
  have viable : cfg.Viable [.nonTerminal 1, .terminal 2] ⟨0, 2⟩ := (viable_first.advance rfl).advance rfl
  obtain ⟨i, state, after, hs, follows⟩ := automaton.exists_state viable
  obtain ⟨place, there, describes⟩ := Chart.exists_describes_of_spells bounds_chart wellFormed hs follows.spells
  cases there
  refine decides.not_comesTo_of_error after (decides.error_of_none hs fun d hd => ?_)
  have none : ∀ e ∈ chart.demandsAt cfg 5, e.1 ≠ errorTerminal := by decide
  exact none _ (Chart.mem_demandsAt wellFormed hs describes hd) rfl

end Run

end misled

/-- **A recovery takes the error token exactly if the error terminal may follow what the stack is unwound to**, and
returns the error that started it otherwise.  With canonical states it always takes it, as it does if the topmost state
with an action for the error terminal shifts it. -/
theorem recovery_shifts_error_iff {grammar : Grammar α} (declared : grammar.Declared)
    (noPrecedence : grammar.HasNoPrecedence) {options : ParserOptions} {parser : Parser α}
    (compiled : (grammar.toParser options).run.value = .ok parser) (recovery : options.errorRecovery = true)
    {source : TokenStream α} {c : Configuration α} (reaches : parser.machine.Reaches source c)
    (detects : parser.machine.Detects c) (allowed : c.errors < options.maxErrors)
    (shiftable : ∃ i ∈ c.states, ∃ next, parser.machine.action i errorTerminal = .shift next) :
    ∃ kept, parser.machine.unwind? c.stack = some kept ∧
      (∃ word, Along (grammar.cfg.collection options.mergeCores) kept word) ∧
      (∀ word, Along (grammar.cfg.collection options.mergeCores) kept word →
        (parser.machine.ShiftsError source c c.lookahead ↔ grammar.cfg.MayFollow word errorTerminal)) ∧
      (¬parser.machine.ShiftsError source c c.lookahead →
        parser.machine.FailsWith source c (parser.machine.detected c)) ∧
      (options.mergeCores = false → parser.machine.ShiftsError source c c.lookahead) ∧
      ((∃ next, parser.machine.action (topState kept) errorTerminal = .shift next) →
        parser.machine.ShiftsError source c c.lookahead) := by
  have decides := Grammar.decides_of_toParser declared noPrecedence compiled
  obtain ⟨table, -, machine⟩ := Grammar.table_of_toParser compiled
  have hoptions : parser.machine.options = options := by rw [machine]; rfl
  obtain ⟨kept, unwound, acts, ⟨word, along⟩, iff, fails⟩ := decides.recovers_of_detects reaches detects
    (by rw [hoptions, recovery]) (by rwa [hoptions]) shiftable
  refine ⟨kept, unwound, ⟨word, along⟩, iff, fails, fun canonical => (iff word along).mpr ?_,
    fun ⟨next, shift⟩ => (iff word along).mpr ?_⟩
  · exact decides.mayFollow_of_canonical canonical error_ne_end along.stateAfter_eq acts
  · exact (decides.acts_of_shift along.stateAfter_eq shift).mayFollow decides.realizes.isAutomaton error_ne_end

theorem recovery_shifts_error_iff_misled : ∃ parser : Parser Unit,
    (misled.toParser { mergeCores := false }).run.value = .ok parser ∧ ∃ c, parser.machine.Reaches misled.source c ∧
      parser.machine.Detects c ∧ c.errors < 100 ∧
      (∃ i ∈ c.states, ∃ next, parser.machine.action i errorTerminal = .shift next) ∧
      parser.machine.ShiftsError misled.source c c.lookahead := by
  obtain ⟨parser, compiled⟩ := misled.exists_toParser { mergeCores := false }
  obtain ⟨stack, reaches, along⟩ := misled.exists_reaches compiled
  have detects := misled.detects compiled along
  have shiftable := misled.exists_shiftable compiled (c := .clean stack misled.stop 3)
  obtain ⟨kept, -, -, -, -, shifts, -⟩ := recovery_shifts_error_iff misled.declared misled.hasNoPrecedence compiled rfl
    reaches detects (by decide : 0 < 100) shiftable
  exact ⟨parser, compiled, _, reaches, detects, (by decide : 0 < 100), shiftable, shifts rfl⟩

/-- **Merged states may mislead a recovery.**  Behind the text pk the end of the input is rejected, and the first state
shifts the error token.  But the merged state behind the letter k has a reduction in front of it, and behind that
reduction the error token is rejected, and the parse fails. -/
theorem merging_misleads : misled.Declared ∧ misled.HasNoPrecedence ∧ ∃ parser : Parser Unit,
    (misled.toParser {}).run.value = .ok parser ∧ ∃ c, parser.machine.Reaches misled.source c ∧
      parser.machine.Detects c ∧ c.errors < 100 ∧
      (∃ i ∈ c.states, ∃ next, parser.machine.action i errorTerminal = .shift next) ∧
      ¬parser.machine.ShiftsError misled.source c c.lookahead ∧
      parser.machine.FailsWith misled.source c (parser.machine.detected c) := by
  obtain ⟨parser, compiled⟩ := misled.exists_toParser {}
  obtain ⟨stack, reaches, along⟩ := misled.exists_reaches compiled
  have detects := misled.detects compiled along
  have shiftable := misled.exists_shiftable compiled (c := .clean stack misled.stop 3)
  have decides := Grammar.decides_of_toParser misled.declared misled.hasNoPrecedence compiled
  obtain ⟨table, -, machine⟩ := Grammar.table_of_toParser compiled
  obtain ⟨kept, unwound, -, -, iff, fails⟩ := decides.recovers_of_detects reaches detects (by rw [machine]; rfl)
    (by rw [machine]; exact (by decide : 0 < 100)) shiftable
  -- the topmost state has an action for the error token, so nothing is taken off
  cases unwound.symm.trans (Machine.unwind?_of_acts (misled.reduces compiled rfl along).2)
  have stuck := (iff _ along).not.mpr (misled.not_mayFollow compiled rfl along)
  exact ⟨misled.declared, misled.hasNoPrecedence, parser, compiled, _, reaches, detects, (by decide : 0 < 100),
    shiftable, stuck, fails stuck⟩

end TableParsing
