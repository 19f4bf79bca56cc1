import TableParsing.Proofs.Lr.Halting
import TableParsing.Proofs.Parser.Along

/-! # What a run comes to

Without precedence the tokens say what a run comes to.  A token is shifted if the tokens in front of it lead to it.
In front of the first other token **the run makes finitely many reductions** (`Machine.Decides.exists_turn`), and then
there is nothing left but to accept or to reject it: the run accepts in front of the end of the input if the tokens are
a sentence, and rejects the token otherwise (`Fits.exists_error`).

What is rejected raises a syntax error, whether a recovery follows or not (`Machine.Raises`), and nothing else does. -/

namespace TableParsing

variable {α : Type} [Inhabited α]

/-! ## Machines that ask for one thing -/

/-- Whether a machine does what the states of a grammar ask for, and reduces only in front of what they allow. -/
structure Machine.Decides (grammar : Grammar α) (mergeCores : Bool) (machine : Machine α) : Prop where
  realizes : machine.Realizes grammar (grammar.cfg.collection mergeCores)
  allows : ∀ i t number : Nat, machine.action i t = .reduce number → ∃ state p production,
    (grammar.cfg.collection mergeCores)[i]? = some state ∧ grammar.productions[p]? = some production ∧
      state.items.Allows ⟨p, production.symbols.length⟩ t ∧ machine.Reduces number p production

/-- So does the machine of a grammar without precedence. -/
theorem Grammar.decides_of_toParser {grammar : Grammar α} (declared : grammar.Declared)
    (noPrecedence : grammar.HasNoPrecedence) {options : ParserOptions} {parser : Parser α}
    (compiled : (grammar.toParser options).run.value = .ok parser) :
    parser.machine.Decides grammar options.mergeCores := by
  have realizes := Grammar.realizes_of_toParser declared noPrecedence compiled
  obtain ⟨table, built, machine⟩ := Grammar.table_of_toParser compiled
  refine ⟨realizes, fun i t number action => ?_⟩
  rw [machine] at action ⊢
  exact Machine.allows_ofGrammar built options realizes.isAutomaton action

namespace Machine.Decides
variable {grammar : Grammar α} {mergeCores : Bool} {machine : Machine α} {state : Collection.State} {i t : Nat}
  (decides : machine.Decides grammar mergeCores)
include decides

omit [Inhabited α] in
/-- What a state asks for is what the machine does. -/
theorem does {demand : Demand} (hs : (grammar.cfg.collection mergeCores)[i]? = some state)
    (hd : (t, demand) ∈ grammar.cfg.demands state) :
    match demand with
    | .shift target => machine.action i t = .shift target
    | .reduce p => ∃ number production, machine.action i t = .reduce number ∧ machine.Reduces number p production
    | .accept => machine.action i t = .accept := by
  obtain ⟨wf, automaton, -, fully⟩ := decides.realizes
  have sound := automaton.sound i state hs
  cases demand with
  | shift target =>
    have leads := lookup_eq_some_of_mem sound.nodup (Cfg.shift_mem_demands.mp hd)
    exact fully.shift i t target state hs leads (automaton.lt_of_lookup wf hs leads)
  | reduce p =>
    obtain ⟨item, hm, rfl, complete, result, ht⟩ := Cfg.reduce_mem_demands.mp hd
    obtain ⟨production, hp⟩ := Grammar.exists_production_of_resultOf? result
    have dot := (Cfg.isComplete_iff (sound.isClosure.fits item hm).1).mp complete
    rw [Grammar.symbolsOf_eq hp] at dot
    obtain ⟨number, action, reduces⟩ := fully.reduce i t _ state production hs hp ⟨item, hm, by rw [← dot], ht⟩
    exact ⟨number, production, action, reduces⟩
  | accept =>
    obtain ⟨rfl, item, hm, complete, result⟩ := Cfg.accept_mem_demands.mp hd
    have core := core_eq_augmented (sound.isClosure.fits item hm).1 complete result
    exact fully.accept i state hs (state.items.has_iff.mpr ⟨item, hm, core⟩)

omit [Inhabited α] in
/-- **No state asks for two things**, as the machine does one. -/
theorem agree : ∀ state ∈ grammar.cfg.collection mergeCores, Agree (grammar.cfg.demands state) := by
  intro state hm t d d' h h'
  obtain ⟨i, hs⟩ := List.mem_iff_getElem?.mp hm
  have done := decides.does hs h
  have done' := decides.does hs h'
  cases d with
  | shift target =>
    have done : machine.action i t = .shift target := done
    cases d' with
    | shift target' =>
      have done' : machine.action i t = .shift target' := done'
      cases done.symm.trans done'
      rfl
    | reduce p =>
      obtain ⟨number, production, done', -⟩ := done'
      cases done.symm.trans done'
    | accept => cases done.symm.trans done'
  | reduce p =>
    obtain ⟨number, production, done, reduces⟩ := done
    cases d' with
    | shift target => cases done.symm.trans done'
    | reduce q =>
      obtain ⟨number', production', done', reduces'⟩ := done'
      cases done.symm.trans done'
      have same : p = q :=
        congrArg Reduction.production (Option.some.inj (reduces.reduction.symm.trans reduces'.reduction))
      rw [same]
    | accept => cases done.symm.trans done'
  | accept =>
    have done : machine.action i t = .accept := done
    cases d' with
    | shift target => cases done.symm.trans done'
    | reduce q =>
      obtain ⟨number, production, done', -⟩ := done'
      cases done.symm.trans done'
    | accept => rfl

/-! ## Turns -/

variable {source : TokenStream α} {stack : List (Entry α)} {lookahead : Token α} {leaves : List (Token α)} {n : Nat}

/-- **In front of a token a run makes finitely many reductions.** -/
theorem exists_turn (supported : Supported grammar (grammar.cfg.collection mergeCores) stack leaves)
    (known : lookahead.terminal < machine.table.actions.terminalCount) : ∃ m stack',
      machine.Runs source m (.clean stack lookahead n) (.clean stack' lookahead n) ∧
      Supported grammar (grammar.cfg.collection mergeCores) stack' leaves ∧
      ∀ number, machine.action (topState stack') lookahead.terminal ≠ .reduce number := by
  obtain ⟨wf, automaton, drives, -⟩ := decides.realizes
  obtain ⟨word, along, -⟩ := supported.exists_word
  have halts := Cfg.halts wf (Cfg.undisputed_of_agree decides.agree) (t := lookahead.terminal) word
  induction halts generalizing stack with
  | intro word _ ih =>
    by_cases reduced : ∃ number, machine.action (topState stack) lookahead.terminal = .reduce number
    · obtain ⟨number, action⟩ := reduced
      have heeds : machine.Heeds grammar _ := decides.allows
      obtain ⟨stack', word', running, supported', along', step⟩ :=
        heeds.exists_reduction source (c := .clean stack lookahead n) wf automaton drives supported along known action
      obtain ⟨m, last, runs, rest⟩ := ih word' step supported' along'
      exact ⟨m + 1, last, .step running runs, rest⟩
    · exact ⟨0, stack, .refl _, supported, fun number action => reduced ⟨number, action⟩⟩

end Machine.Decides

namespace Machine
variable {machine : Machine α} {source : TokenStream α} {stack : List (Entry α)} {lookahead : Token α} {n : Nat}
  {e : SyntaxError}

/-! ## Rejections -/

/-- Whether a step raises a syntax error: it ends the run with the error, or starts a recovery from it. -/
def Raises (machine : Machine α) (source : TokenStream α) (c : Configuration α) (e : SyntaxError) : Prop :=
  (machine.step source c).value = .finished (.error (.syntaxError e)) ∨
    ∃ c', (machine.step source c).value = .running c' ∧ c'.errors = c.errors + 1 ∧ c'.pending = some e

theorem step_eq_recover (known : lookahead.terminal < machine.table.actions.terminalCount)
    (action : machine.action (topState stack) lookahead.terminal = .error) :
    machine.step source (.clean stack lookahead n) = machine.recover (.clean stack lookahead n) := by
  rw [step_eq (c := .clean stack lookahead n) known]
  simp only [Configuration.clean, action]
  rfl

/-- A token that has no action is rejected. -/
theorem raises_of_error (known : lookahead.terminal < machine.table.actions.terminalCount)
    (action : machine.action (topState stack) lookahead.terminal = .error) :
    machine.Raises source (.clean stack lookahead n) (machine.syntaxError (topState stack) lookahead) := by
  rw [Raises, step_eq_recover known action, recover]
  simp only
  split
  · exact .inl rfl
  · exact .inr ⟨_, rfl, rfl, rfl⟩

/-- A step that returns a syntax error has rejected its lookahead. -/
theorem error_of_finished {c : Configuration α}
    (h : (machine.step source c).value = .finished (.error (.syntaxError e))) :
    c.lookahead.terminal < machine.table.actions.terminalCount ∧
      machine.action (topState c.stack) c.lookahead.terminal = .error := by
  cases stop_of_finished h with
  | failure known action | refuse known action => exact ⟨known, action⟩

theorem error_of_running {c' : Configuration α}
    (h : (machine.step source (.clean stack lookahead n)).value = .running c') (errors : c'.errors = 1) :
    lookahead.terminal < machine.table.actions.terminalCount ∧
      machine.action (topState stack) lookahead.terminal = .error := by
  constructor
  · by_contra unknown
    rw [step, if_pos (Nat.le_of_not_lt unknown : _ ≤ (Configuration.clean stack lookahead n).lookahead.terminal)] at h
    cases h
  · cases step_of_running h with
    | shift | shiftError | reduce | discard => cases errors
    | recover action => exact action

/-- Nothing else raises a syntax error. -/
theorem Raises.eq_syntaxError (h : machine.Raises source (.clean stack lookahead n) e) :
    lookahead.terminal < machine.table.actions.terminalCount ∧
      machine.action (topState stack) lookahead.terminal = .error ∧
      e = machine.syntaxError (topState stack) lookahead := by
  obtain ⟨known, action⟩ : lookahead.terminal < machine.table.actions.terminalCount ∧
      machine.action (topState stack) lookahead.terminal = .error :=
    h.elim error_of_finished fun ⟨_, running, errors, _⟩ => error_of_running running errors
  refine ⟨known, action, ?_⟩
  rw [Raises, step_eq_recover known action, recover] at h
  simp only at h
  split at h <;> rcases h with finished | ⟨c', running, -, pending⟩
  · cases finished
    rfl
  · cases running
  · cases finished
  · cases running
    exact (Option.some.inj pending).symm

/-- A run raises its first syntax error before it comes to anything else. -/
theorem Raises.eq_of_reaches {c last : Configuration α} (h : machine.Raises source c e)
    (reaches : machine.Reaches source c) (reaches' : machine.Reaches source last) (none : last.errors = 0)
    (turned : ∀ c', (machine.step source last).value = .running c' → c.read < c'.read) : c = last := by
  rcases reaches.linear reaches' with ⟨m, runs⟩ | ⟨m, runs⟩
  · cases runs with
    | refl => rfl
    | step running runs =>
      -- the step that raises the error would have to go on with it
      rcases h with finished | ⟨c', running', errors, -⟩
      · cases finished.symm.trans running
      · cases running.symm.trans running'
        have := runs.errors_le
        omega
  · cases runs with
    | refl => rfl
    | step running runs => exact absurd (turned _ running) (Nat.not_lt.mpr runs.read_le)

end Machine

/-- **A token that does not fit is rejected**, unless it is the end of the input behind a sentence. -/
theorem Grammar.Fits.exists_error {grammar : Grammar α} {mergeCores : Bool} {machine : Machine α}
    {source : TokenStream α} {tokens : List (Token α)} {next : Token α} (decides : machine.Decides grammar mergeCores)
    (fits : grammar.Fits tokens) (begins : source.Begins (tokens ++ [next]))
    (known : next.terminal < grammar.terminals.length) (misfit : ¬grammar.LeadsTo tokens next)
    (unfinished : next.terminal = endTerminal → ¬grammar.IsSentence tokens) : ∃ n stack,
      machine.Runs source n (.clean [] (tokens.headD next) 1) (.clean stack next (tokens.length + 1)) ∧
      machine.action (topState stack) next.terminal = .error := by
  obtain ⟨wf, automaton, drives, -⟩ := id decides.realizes
  rw [← drives.terminalCount_eq] at known
  obtain ⟨n, stack, supported, runs⟩ := fits.runs decides.realizes begins
  obtain ⟨m, stack', turn, supported', done⟩ := decides.exists_turn supported known
  refine ⟨_, stack', runs.trans turn, ?_⟩
  cases action : machine.action (topState stack') next.terminal with
  | error => rfl
  | shift target => exact absurd (drives.leadsTo_of_shift automaton supported' action) misfit
  | reduce number => exact absurd action (done number)
  | accept =>
    obtain ⟨atEnd, sentence⟩ := drives.isSentence_of_accept automaton supported' action
    exact absurd sentence (unfinished atEnd)

/-! ## Results -/

namespace Machine
variable {machine : Machine α} {source : TokenStream α} {stack : List (Entry α)} {lookahead first : Token α}
  {last : Configuration α} {result : Except ParseError α} {n : Nat}

/-- Whether a parse that is given enough steps comes to a result. -/
def Yields (machine : Machine α) (source : TokenStream α) (result : Except ParseError α) : Prop :=
  ∃ bound, ∀ limit, bound < limit → (machine.parse source limit).value = some result

theorem Yields.unique {other : Except ParseError α} (h : machine.Yields source result)
    (h' : machine.Yields source other) : result = other := by
  obtain ⟨bound, yields⟩ := h
  obtain ⟨bound', yields'⟩ := h'
  have first := yields (bound + bound' + 1) (by omega)
  exact Option.some.inj (first.symm.trans (yields' (bound + bound' + 1) (by omega)))

theorem Runs.yields (runs : machine.Runs source n (.clean [] first 1) last) (read : (source 0).value = .ok first)
    (finished : (machine.step source last).value = .finished result) : machine.Yields source result :=
  ⟨n, fun limit enough => by
    rw [value_parse, read]
    exact runs.finish finished enough _⟩

theorem finished_shift {next : Nat} {e : ScanError} (known : lookahead.terminal < machine.table.actions.terminalCount)
    (action : machine.action (topState stack) lookahead.terminal = .shift next) (read : (source n).value = .error e) :
    (machine.step source (.clean stack lookahead n)).value = .finished (.error (.lexer e)) := by
  rw [step_eq (c := .clean stack lookahead n) known]
  simp only [Configuration.clean, action, value_shift, value_advance, read]

theorem finished_unknown (unknown : machine.table.actions.terminalCount ≤ lookahead.terminal) :
    (machine.step source (.clean stack lookahead n)).value = .finished (.error (.unknownToken lookahead.terminal)) :=
  congrArg Logged.value (if_pos unknown)

theorem finished_error (noRecovery : machine.options.errorRecovery = false)
    (known : lookahead.terminal < machine.table.actions.terminalCount)
    (action : machine.action (topState stack) lookahead.terminal = .error) :
    (machine.step source (.clean stack lookahead n)).value =
      .finished (.error (.syntaxError (machine.syntaxError (topState stack) lookahead))) := by
  rw [step_eq_recover known action, recover]
  simp only [noRecovery, Bool.false_and, Bool.false_eq_true, if_false]
  rfl

end Machine

namespace Grammar
variable {grammar : Grammar α} {states : List Collection.State} {mergeCores : Bool} {machine : Machine α}
  {source : TokenStream α} {tokens : List (Token α)} {next : Token α}

/-- An error of the source behind tokens that fit is what a parse comes to. -/
theorem Fits.yields_lexer (realizes : machine.Realizes grammar states) (fits : grammar.Fits tokens)
    (begins : source.Begins tokens) {e : ScanError} (read : (source tokens.length).value = .error e) :
    machine.Yields source (.error (.lexer e)) := by
  rcases List.eq_nil_or_concat tokens with rfl | ⟨front, last, rfl⟩
  · refine ⟨0, fun limit _ => ?_⟩
    have read : (source 0).value = .error e := read
    rw [Machine.value_parse, read]
  · rw [List.concat_eq_append] at begins fits read
    obtain ⟨n, stack, target, runs, action⟩ := (fits front last [] rfl).runs realizes begins
    have known := (fits front last [] rfl).lt realizes.wellFormed
    rw [← realizes.drives.terminalCount_eq] at known
    rw [List.length_append] at read
    exact runs.yields begins.continues.head (Machine.finished_shift known action read)

/-- So is a token behind them that the grammar does not have. -/
theorem Fits.yields_unknownToken (realizes : machine.Realizes grammar states) (fits : grammar.Fits tokens)
    (begins : source.Begins (tokens ++ [next])) (unknown : grammar.terminals.length ≤ next.terminal) :
    machine.Yields source (.error (.unknownToken next.terminal)) := by
  obtain ⟨n, stack, -, runs⟩ := fits.runs realizes begins
  rw [← realizes.drives.terminalCount_eq] at unknown
  exact runs.yields begins.continues.head (Machine.finished_unknown unknown)

/-- Without recovery a token that does not fit ends the parse with its syntax error. -/
theorem Fits.yields_syntaxError (decides : machine.Decides grammar mergeCores)
    (noRecovery : machine.options.errorRecovery = false) (fits : grammar.Fits tokens)
    (begins : source.Begins (tokens ++ [next])) (known : next.terminal < grammar.terminals.length)
    (misfit : ¬grammar.LeadsTo tokens next) (unfinished : next.terminal = endTerminal → ¬grammar.IsSentence tokens) :
    ∃ i, machine.Yields source (.error (.syntaxError (machine.syntaxError i next))) := by
  obtain ⟨n, stack, runs, action⟩ := fits.exists_error decides begins known misfit unfinished
  rw [← decides.realizes.drives.terminalCount_eq] at known
  exact ⟨_, runs.yields begins.continues.head (Machine.finished_error noRecovery known action)⟩

/-- A sentence and the end behind it come to the value of the tree in state 0. -/
theorem Tree.yields (realizes : machine.Realizes grammar states) (tree : grammar.Tree (.nonTerminal grammar.start))
    (atEnd : next.terminal = endTerminal) (begins : source.Begins (tree.yield ++ [next])) :
    machine.Yields source (.ok (tree.valueIn machine states 0)) := by
  obtain ⟨finish, runs, -, finished⟩ := tree.runs_begin realizes atEnd begins
  exact runs.yields begins.continues.head finished

end Grammar
end TableParsing
