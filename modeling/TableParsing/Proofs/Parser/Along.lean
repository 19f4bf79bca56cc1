import TableParsing.Proofs.Lr.Sentence
import TableParsing.Proofs.Parser.Completeness
import TableParsing.Proofs.Parser.Soundness

/-! # Runs along words

The states on a stack lie **along** a word of symbols, each where the word up to its symbol leads (`Along`).  A run in
which no token has been rejected lies along a word whose trees have the tokens for leaves that it has taken.

Without precedence it is also the other way round: if trees of a viable word have some tokens for leaves, and the next
token can start what stands behind the dot, **then a run over the tokens comes to lie along the word**
(`Spanned.runs`).  So a token that the tokens in front of it lead to is shifted, and a run takes all tokens that fit
(`Fits.runs`). -/

namespace TableParsing

variable {α : Type}

/-! ## Words of stacks -/

/-- Whether each state of a stack is where the symbols up to it lead, the latest symbol first. -/
inductive Along (states : List Collection.State) : List (Entry α) → List Symbol → Prop
  | bottom : Along states [] []
  | push {stack : List (Entry α)} {word : List Symbol} {symbol : Symbol} {state : Collection.State} {next : Nat}
      {value : α} (h : Along states stack word) (top : states[topState stack]? = some state)
      (leads : state.transitions.lookup symbol = some next) : Along states (⟨next, value⟩ :: stack) (symbol :: word)

namespace Along
variable {states : List Collection.State} {stack : List (Entry α)} {word : List Symbol} {cfg : Cfg}

theorem stateAfter_eq (h : Along states stack word) : Cfg.stateAfter states word = some (topState stack) := by
  induction h with
  | bottom => rfl
  | push _ top leads ih => rw [Cfg.stateAfter, ih, Option.bind_some, top, Option.bind_some, leads, topState]

theorem drop (h : Along states stack word) (n : Nat) : Along states (stack.drop n) (word.drop n) := by
  induction n generalizing stack word with
  | zero => exact h
  | succ n ih =>
    cases h with
    | bottom => exact .bottom
    | push h _ _ => exact ih h

/-- The top state has the cores that are viable for the word. -/
theorem follows (automaton : cfg.IsAutomaton states) (h : Along states stack word) :
    ∃ state, states[topState stack]? = some state ∧ cfg.Follows word state := automaton.follows h.stateAfter_eq

theorem exists_viable (automaton : cfg.IsAutomaton states) (h : Along states stack word) :
    ∃ core, cfg.Viable word core := by
  obtain ⟨state, hs, follows⟩ := h.follows automaton
  obtain ⟨core, hc⟩ := automaton.exists_core hs
  exact ⟨core, ((follows.spells core).mp hc).viable⟩

/-- The top state leads on with what is viable behind the word. -/
theorem exists_lookup {core : Core} {symbol : Symbol} (automaton : cfg.IsAutomaton states)
    (h : Along states stack word) (viable : cfg.Viable word core) (hnext : cfg.nextSymbol? core = some symbol) :
    ∃ state target, states[topState stack]? = some state ∧ cfg.Follows word state ∧
      state.transitions.lookup symbol = some target := by
  obtain ⟨state, top, follows⟩ := h.follows automaton
  obtain ⟨target, leads⟩ := (automaton.exists_lookup_iff top follows.spells).mpr ⟨core, viable, hnext⟩
  exact ⟨state, target, top, follows, leads⟩

end Along

/-- The state behind a symbol is the one after the longer word. -/
theorem nextState_eq_of_stateAfter {states : List Collection.State} {word : List Symbol} {symbol : Symbol} {i j : Nat}
    (before : Cfg.stateAfter states word = some i) (after : Cfg.stateAfter states (symbol :: word) = some j) :
    nextState states i symbol = j := by
  rw [Cfg.stateAfter, before, Option.bind_some] at after
  rw [nextState, after, Option.getD_some]

/-- What supports a stack lies along a word of its trees. -/
theorem Supported.exists_word {grammar : Grammar α} {states : List Collection.State} {stack : List (Entry α)}
    {leaves : List (Token α)} (h : Supported grammar states stack leaves) :
    ∃ word, Along states stack word ∧ grammar.Spanned word leaves := by
  induction h with
  | bottom => exact ⟨[], .bottom, .nil⟩
  | push _ tree top leads ih =>
    obtain ⟨word, along, spanned⟩ := ih
    exact ⟨_, along.push top leads, spanned.push tree⟩

/-! ## Streams -/

namespace TokenStream
variable {source : TokenStream α} {front back : List (Token α)} {token next : Token α}

theorem Begins.of_append (h : source.Begins (front ++ back)) : source.Begins front := fun i token hi =>
  h i token ((List.getElem?_append_left (List.getElem?_eq_some_iff.mp hi).1).trans hi)

theorem Begins.value_length (h : source.Begins (front ++ [token])) : (source front.length).value = .ok token :=
  h _ _ (by rw [List.getElem?_append_right (Nat.le_refl _), Nat.sub_self]; rfl)

/-- The tokens up to the first one of some others. -/
theorem Begins.snoc_headD (h : source.Begins (front ++ back ++ [next])) :
    source.Begins (front ++ [back.headD next]) := by
  cases back with
  | nil => exact List.append_nil front ▸ h
  | cons first back =>
    rw [List.append_assoc, List.cons_append, List.append_cons] at h
    exact h.of_append

theorem Begins.eq_of_length {tokens others : List (Token α)} (h : source.Begins tokens) (h' : source.Begins others)
    (same : tokens.length = others.length) : tokens = others := by
  refine List.ext_getElem same fun i hi hi' => ?_
  have ht := h i _ (List.getElem?_eq_getElem hi)
  have ho := h' i _ (List.getElem?_eq_getElem hi')
  exact Except.ok.inj (ht.symm.trans ho)

end TokenStream

/-! ## Reached configurations -/

variable [Inhabited α]

namespace Machine
variable {machine : Machine α} {source : TokenStream α} {c c' last : Configuration α} {m n : Nat}

theorem Reaches.runs_from (h : machine.Reaches source c) (runs : machine.Runs source n c c') :
    machine.Reaches source c' := by
  induction runs with
  | refl => exact h
  | step running _ ih => exact ih (.step h running)

theorem Reaches.exists_runs (h : machine.Reaches source c) : ∃ token n,
    (source 0).value = .ok token ∧ machine.Runs source n (.clean [] token 1) c := by
  induction h with
  | start read => exact ⟨_, 0, read, .refl _⟩
  | step _ running ih =>
    obtain ⟨token, n, read, runs⟩ := ih
    exact ⟨token, n + 1, read, runs.trans (.single running)⟩

/-- Of two configurations of a run, one comes behind the other. -/
theorem Reaches.linear (h : machine.Reaches source c) (h' : machine.Reaches source c') :
    (∃ m, machine.Runs source m c c') ∨ ∃ m, machine.Runs source m c' c := by
  induction h with
  | start read =>
    obtain ⟨token, n, read', runs⟩ := h'.exists_runs
    cases read.symm.trans read'
    exact .inl ⟨n, runs⟩
  | step _ running ih =>
    rcases ih with ⟨m, runs⟩ | ⟨m, runs⟩
    · cases runs with
      | refl => exact .inr ⟨1, .single running⟩
      | step running' runs =>
        cases running.symm.trans running'
        exact .inl ⟨_, runs⟩
    · exact .inr ⟨m + 1, runs.trans (.single running)⟩

/-- A run that is finished goes no further. -/
theorem Runs.eq_of_finished {result : Except ParseError α} (runs : machine.Runs source n c last)
    (finished : (machine.step source c).value = .finished result) : c = last := by
  cases runs with
  | refl => rfl
  | step running => cases finished.symm.trans running

/-- A run is finished in one configuration only. -/
theorem Reaches.eq_of_finished {result result' : Except ParseError α} (h : machine.Reaches source c)
    (finished : (machine.step source c).value = .finished result) (h' : machine.Reaches source c')
    (finished' : (machine.step source c').value = .finished result') : c = c' := by
  rcases h.linear h' with ⟨m, runs⟩ | ⟨m, runs⟩
  · exact runs.eq_of_finished finished
  · exact (runs.eq_of_finished finished').symm

/-- Tokens are not given back. -/
theorem Runs.read_le (h : machine.Runs source n c last) : c.read ≤ last.read := by
  induction h with
  | refl c => exact Nat.le_refl _
  | step running _ ih =>
    refine Nat.le_trans ?_ ih
    cases step_of_running running with
    | shiftError | reduce | recover => exact Nat.le_refl _
    | shift | discard => exact Nat.le_succ _

/-- A configuration without a recovery has nothing to tell but its stack and its place. -/
theorem Reaches.eq_clean (h : machine.Reaches source c) (none : c.errors = 0) :
    c = .clean c.stack c.lookahead c.read := by
  induction h with
  | start => rfl
  | @step c c' _ running ih =>
    obtain ⟨stack, lookahead, deferred, pending, recovering, errors, read⟩ := c
    cases step_of_running running with
    | shift | reduce =>
      cases ih none
      rfl
    | shiftError _ rejected =>
      cases ih none
      cases rejected
    | discard _ _ behind =>
      cases ih none
      cases behind
    | recover => cases none

end Machine

/-! ## What has been taken -/

section Taken
variable {grammar : Grammar α} {states : List Collection.State} {machine : Machine α} {source : TokenStream α}
  {stack : List (Entry α)} {lookahead : Token α} {leaves : List (Token α)}

variable (grammar) in
/-- A stack is always made of trees. -/
theorem Machine.Reaches.exists_supported {c : Configuration α} (wf : grammar.cfg.WellFormed)
    (automaton : grammar.cfg.IsAutomaton states) (drives : machine.Drives grammar states)
    (h : machine.Reaches source c) : ∃ leaves, Supported grammar states c.stack leaves := by
  obtain ⟨tokens, leaves, explains⟩ := Explains.of_reaches wf automaton drives h
  exact ⟨leaves, explains.supported⟩

/-- Without a recovery the leaves are the tokens in front of the lookahead. -/
theorem Machine.Reaches.supported {c : Configuration α} (wf : grammar.cfg.WellFormed)
    (automaton : grammar.cfg.IsAutomaton states) (drives : machine.Drives grammar states)
    (h : machine.Reaches source c) (none : c.errors = 0) : ∃ tokens, source.Begins (tokens ++ [c.lookahead]) ∧
      c.read = tokens.length + 1 ∧ Supported grammar states c.stack tokens := by
  obtain ⟨tokens, leaves, explains⟩ := Explains.of_reaches wf automaton drives h
  obtain ⟨deferred, -, rfl⟩ := explains.faithful none
  have begins := explains.begins
  rw [Configuration.upcoming, deferred] at begins
  exact ⟨leaves, begins, explains.read_eq, explains.supported⟩

namespace Machine.Drives
variable (drives : machine.Drives grammar states) (automaton : grammar.cfg.IsAutomaton states)
include drives automaton

omit [Inhabited α] in
/-- A token is shifted only if the tokens in front of it lead to it. -/
theorem leadsTo_of_shift (supported : Supported grammar states stack leaves) {target : Nat}
    (action : machine.action (topState stack) lookahead.terminal = .shift target) :
    grammar.LeadsTo leaves lookahead := by
  obtain ⟨word, along, spanned⟩ := supported.exists_word
  obtain ⟨state, top, leads⟩ := drives.shift _ _ _ action
  obtain ⟨state', top', follows⟩ := along.follows automaton
  cases top.symm.trans top'
  obtain ⟨core, viable, hnext⟩ := (automaton.exists_lookup_iff top follows.spells).mp ⟨target, leads⟩
  exact ⟨word, core, spanned, viable, hnext⟩

omit [Inhabited α] in
/-- Only a sentence is accepted, and only in front of the end. -/
theorem isSentence_of_accept (supported : Supported grammar states stack leaves)
    (action : machine.action (topState stack) lookahead.terminal = .accept) :
    lookahead.terminal = endTerminal ∧ grammar.IsSentence leaves := by
  obtain ⟨atEnd, state, top, has⟩ := drives.accept _ _ action
  obtain ⟨tree, hyield, -⟩ := supported.accept automaton top has
  exact ⟨atEnd, tree, hyield⟩

end Machine.Drives
end Taken

/-! ## Reductions along words -/

/-- Whether a machine reduces only where the states allow it. -/
def Machine.Heeds (grammar : Grammar α) (states : List Collection.State) (machine : Machine α) : Prop :=
  ∀ i t number : Nat, machine.action i t = .reduce number → ∃ state p production,
    states[i]? = some state ∧ grammar.productions[p]? = some production ∧
      state.items.Allows ⟨p, production.symbols.length⟩ t ∧ machine.Reduces number p production

/-- **Where a machine reduces, the word is reduced as the stack is**, and nothing else of the configuration changes. -/
theorem Machine.Heeds.exists_reduction {grammar : Grammar α} {states : List Collection.State} {machine : Machine α}
    {c : Configuration α} {leaves : List (Token α)} {word : List Symbol} {number : Nat}
    (heeds : machine.Heeds grammar states) (source : TokenStream α) (wf : grammar.cfg.WellFormed)
    (automaton : grammar.cfg.IsAutomaton states)
    (drives : machine.Drives grammar states) (supported : Supported grammar states c.stack leaves)
    (along : Along states c.stack word) (known : c.lookahead.terminal < machine.table.actions.terminalCount)
    (action : machine.action (topState c.stack) c.lookahead.terminal = .reduce number) : ∃ stack word',
      (machine.step source c).value = .running { c with stack } ∧ Supported grammar states stack leaves ∧
      Along states stack word' ∧ grammar.cfg.Reduces states c.lookahead.terminal word word' := by
  obtain ⟨state, p, production, top, hp, allows, reduces⟩ := heeds _ _ _ action
  let uncovered := topState (c.stack.drop production.symbols.length)
  obtain ⟨next, under, hunder, leads, supported'⟩ :=
    supported.reduce automaton top hp allows.has (c.pending.getD (machine.fallbackError uncovered))
  have result := wf.result_lt _ (Grammar.mem_rules_of_getElem? hp)
  have goto : machine.table.gotos.get? uncovered production.result = some next :=
    drives.goto _ _ _ under hunder leads result
  refine ⟨_, _, ?_, supported', (along.drop _).push hunder leads,
    .intro along.stateAfter_eq top (Grammar.getElem?_rules hp) allows⟩
  rw [Machine.step_eq known, ← Explains.reduceValue_eq]
  simp only [action, Machine.reduce, reduces.reduction, reduces.action]
  rw [goto]
  rfl

/-- The machine of a parser does nothing but what its states ask for. -/
theorem Grammar.drives_of_toParser {grammar : Grammar α} {options : ParserOptions} {parser : Parser α}
    (compiled : (grammar.toParser options).run.value = .ok parser) (wf : grammar.cfg.WellFormed) :
    parser.machine.Drives grammar (grammar.cfg.collection options.mergeCores) := by
  obtain ⟨table, built, machine⟩ := Grammar.table_of_toParser compiled
  rw [machine]
  exact Machine.drives_ofGrammar built options (Cfg.isAutomaton_collection wf options.mergeCores)

theorem Grammar.heeds_of_toParser {grammar : Grammar α} {options : ParserOptions} {parser : Parser α}
    (compiled : (grammar.toParser options).run.value = .ok parser) (wf : grammar.cfg.WellFormed) :
    parser.machine.Heeds grammar (grammar.cfg.collection options.mergeCores) := by
  obtain ⟨table, built, machine⟩ := Grammar.table_of_toParser compiled
  rw [machine]
  intro i t number action
  exact Machine.allows_ofGrammar built options (Cfg.isAutomaton_collection wf options.mergeCores) action

/-- A terminal that is viable behind the word is shifted, if the machine does so in the states of the word. -/
theorem Machine.Drives.exists_shift {grammar : Grammar α} {states : List Collection.State} {machine : Machine α}
    {source : TokenStream α} {stack : List (Entry α)} {next : Token α} {n : Nat} {word : List Symbol} {core : Core}
    (drives : machine.Drives grammar states) (wf : grammar.cfg.WellFormed) (automaton : grammar.cfg.IsAutomaton states)
    (lookahead : Token α) (along : Along states stack word) (viable : grammar.cfg.Viable word core)
    (hnext : grammar.cfg.nextSymbol? core = some (.terminal lookahead.terminal))
    (shifts : ∀ state target, states[topState stack]? = some state → grammar.cfg.Follows word state →
      state.transitions.lookup (.terminal lookahead.terminal) = some target →
      lookahead.terminal < grammar.terminals.length →
      machine.action (topState stack) lookahead.terminal = .shift target)
    (read : (source n).value = .ok next) : ∃ target,
      (machine.step source (.clean stack lookahead n)).value =
        .running (.clean (⟨target, lookahead.value⟩ :: stack) next (n + 1)) ∧
      Along states (⟨target, lookahead.value⟩ :: stack) (.terminal lookahead.terminal :: word) := by
  obtain ⟨state, target, top, follows, leads⟩ := along.exists_lookup automaton viable hnext
  have bound : lookahead.terminal < grammar.terminals.length := automaton.lt_of_lookup wf top leads
  have action := shifts state target top follows leads bound
  exact ⟨target, Machine.running_shift (drives.terminalCount_eq.symm ▸ bound) action read, along.push top leads⟩

/-- A terminal that is viable behind the word is shifted. -/
theorem Machine.Realizes.exists_shift {grammar : Grammar α} {states : List Collection.State} {machine : Machine α}
    {source : TokenStream α} {stack : List (Entry α)} {next : Token α} {n : Nat} {word : List Symbol}
    {core : Core} (realizes : machine.Realizes grammar states) (lookahead : Token α) (along : Along states stack word)
    (viable : grammar.cfg.Viable word core)
    (hnext : grammar.cfg.nextSymbol? core = some (.terminal lookahead.terminal))
    (read : (source n).value = .ok next) : ∃ stack',
      (machine.step source (.clean stack lookahead n)).value = .running (.clean stack' next (n + 1)) ∧
      Along states stack' (.terminal lookahead.terminal :: word) := by
  obtain ⟨wf, automaton, drives, fully⟩ := realizes
  obtain ⟨target, running, along⟩ := drives.exists_shift wf automaton lookahead along viable hnext
    (fun state _ top _ leads bound => fully.shift _ _ _ state top leads bound) read
  exact ⟨_, running, along⟩

/-! ## Runs along viable words -/

namespace Grammar
variable {grammar : Grammar α} {states : List Collection.State} {machine : Machine α} {source : TokenStream α}
  {word symbols : List Symbol} {leaves : List (Token α)} {core : Core} {next : Token α}

omit [Inhabited α] in
/-- What comes first of a tree and of what follows it starts the symbol and what stands behind it. -/
theorem Tree.starts (wf : grammar.cfg.WellFormed) {symbol : Symbol} (tree : grammar.Tree symbol)
    (starts : grammar.cfg.Starts symbols next.terminal) :
    grammar.cfg.Starts (symbol :: symbols) (tree.yield.headD next).terminal := by
  have closed := Cfg.firstSets_closed wf
  cases hy : tree.yield with
  | nil =>
    have nullable := (Forest.cons tree .nil).firstOf_of_yield_nil closed (by
      rw [Forest.yield, Forest.yield, List.append_nil, hy])
    exact ((Cfg.nullable_firstOf_iff wf).mp nullable).starts_append starts
  | cons first rest => exact (Cfg.contains_firstOf_iff wf).mp (tree.firstOf_of_yield closed hy symbols)

/-- **A run over the leaves of a viable word comes to lie along it**, if the next token starts what stands behind the
dot. -/
theorem Spanned.runs (realizes : machine.Realizes grammar states) (viable : grammar.cfg.Viable word core)
    (spanned : grammar.Spanned word leaves) (starts : grammar.cfg.Starts (grammar.cfg.ahead core) next.terminal)
    (tokens : source.Begins (leaves ++ [next])) : ∃ n stack, Along states stack word ∧
      machine.Runs source n (.clean [] (leaves.headD next) 1) (.clean stack next (leaves.length + 1)) := by
  have wf := realizes.wellFormed
  induction viable generalizing leaves next with
  | start =>
    cases spanned
    exact ⟨0, [], .bottom, .refl _⟩
  | expand _ hnext hp ih =>
    -- what starts the production starts the symbol that asks for it
    obtain ⟨rule, hr, rfl⟩ := Cfg.resultOf?_eq_some_iff.mp (Cfg.mem_productionsOf.mp hp)
    rw [Cfg.ahead_zero hr] at starts
    refine ih spanned ?_ tokens
    rw [Cfg.ahead_of_next hnext]
    exact .inside hr starts
  | @advance word core symbol viable hnext ih =>
    cases spanned with
    | @push _ front _ spanned tree =>
      have first := tree.starts wf starts
      rw [Cfg.ahead_advance, ← Cfg.ahead_of_next hnext] at first
      obtain ⟨n, stack, along, runs⟩ := ih spanned first tokens.snoc_headD
      obtain ⟨state, top, follows⟩ := along.follows realizes.isAutomaton
      obtain ⟨item, hm, hcore⟩ := state.items.has_iff.mp ((follows.has_iff _).mpr viable)
      subst hcore
      have following := Cfg.contains_following.mpr (.inl ((Cfg.contains_firstOf_iff wf).mpr starts))
      have upcoming : source.Continues front.length (tree.yield ++ [next]) := by
        have all := tokens.continues
        rw [List.append_assoc] at all
        exact Nat.zero_add front.length ▸ (TokenStream.continues_append.mp all).2
      obtain ⟨target, leads, runs'⟩ := tree.runs realizes top hm hnext following upcoming
      have whole := runs.trans runs'
      rw [← headD_append, Nat.add_right_comm, ← List.length_append] at whole
      exact ⟨_, _, along.push top leads, whole⟩

/-- **A token that the tokens in front of it lead to is shifted.** -/
theorem LeadsTo.runs (realizes : machine.Realizes grammar states) {tokens : List (Token α)}
    (h : grammar.LeadsTo tokens next) (begins : source.Begins (tokens ++ [next])) : ∃ n stack target,
      machine.Runs source n (.clean [] (tokens.headD next) 1) (.clean stack next (tokens.length + 1)) ∧
      machine.action (topState stack) next.terminal = .shift target := by
  have bound := h.lt realizes.wellFormed
  obtain ⟨word, core, spanned, viable, hnext⟩ := h
  have starts : grammar.cfg.Starts (grammar.cfg.ahead core) next.terminal := by
    rw [Cfg.ahead_of_next hnext]
    exact .terminal
  obtain ⟨n, stack, along, runs⟩ := spanned.runs realizes viable starts begins
  obtain ⟨state, target, top, -, leads⟩ := along.exists_lookup realizes.isAutomaton viable hnext
  exact ⟨n, stack, target, runs, realizes.fully.shift _ _ _ state top leads bound⟩

/-- **A run takes tokens that fit**, and comes to the one behind them. -/
theorem Fits.runs (realizes : machine.Realizes grammar states) {tokens : List (Token α)} (fits : grammar.Fits tokens)
    (begins : source.Begins (tokens ++ [next])) : ∃ n stack, Supported grammar states stack tokens ∧
      machine.Runs source n (.clean [] (tokens.headD next) 1) (.clean stack next (tokens.length + 1)) := by
  obtain ⟨wf, automaton, drives, -⟩ := id realizes
  obtain ⟨n, stack, runs⟩ : ∃ n stack,
      machine.Runs source n (.clean [] (tokens.headD next) 1) (.clean stack next (tokens.length + 1)) := by
    rcases List.eq_nil_or_concat tokens with rfl | ⟨front, last, rfl⟩
    · exact ⟨0, [], .refl _⟩
    · -- the last token is one that is shifted
      rw [List.concat_eq_append] at begins fits ⊢
      obtain ⟨n, stack, target, runs, action⟩ := (fits front last [] rfl).runs realizes begins.of_append
      have known := (fits front last [] rfl).lt wf
      rw [← drives.terminalCount_eq] at known
      have shifted := Machine.running_shift known action (n := front.length + 1)
        (List.length_append ▸ begins.value_length)
      rw [headD_append, List.length_append]
      exact ⟨n + 1, _, runs.trans (.single shifted)⟩
  obtain ⟨others, begins', read, supported⟩ :=
    ((Machine.Reaches.start begins.continues.head).runs_from runs).supported wf automaton drives rfl
  have same := begins.eq_of_length begins' (by
    rw [List.length_append, List.length_append, Nat.succ.inj read]
    rfl)
  rw [← List.append_cancel_right same] at supported
  exact ⟨n, stack, supported, runs⟩

end Grammar
end TableParsing
