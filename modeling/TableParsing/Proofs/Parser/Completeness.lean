import TableParsing.Proofs.Parser.Stack
import TableParsing.Proofs.Parser.Steps

/-! # What derives from the grammar is parsed

A derivation tree is a plan for a run: each leaf is a shift, each node a reduction behind the runs of its
children (`Tree.runs`).  The plan works out because **the items foresee every tree**: if an item has a symbol
behind the dot and a tree of the symbol is to come, then the state of the item leads on, and the lookahead
behind the tree is one that the closure has handed down to the productions of the symbol.

Without precedence the tables do all that the states ask for, so the run follows the plan.  No token is rejected
on the way, and the value at the end is that of the tree (`Tree.value_parse`).

An error production that is reduced on the way has no error to be given, so it is given one that names the state its
tree begins in.  What the machine makes of a tree is its value in that state (`Tree.valueIn`), which is the value of the
tree if no production takes an error. -/

namespace TableParsing

variable {α : Type}

/-- Whether the tokens of the stream from the n-th one on begin with some tokens. -/
def TokenStream.Continues (source : TokenStream α) (n : Nat) (tokens : List (Token α)) : Prop :=
  ∀ (i : Nat) token, tokens[i]? = some token → (source (n + i)).value = .ok token

theorem TokenStream.Begins.continues {source : TokenStream α} {tokens : List (Token α)}
    (h : source.Begins tokens) : source.Continues 0 tokens := fun i token hi => by
  rw [Nat.zero_add]
  exact h i token hi

theorem TokenStream.continues_append {source : TokenStream α} {n : Nat} {front back : List (Token α)} :
    source.Continues n (front ++ back) ↔
      source.Continues n front ∧ source.Continues (n + front.length) back := by
  constructor
  · refine fun h => ⟨fun i token hi => h i token ?_, fun i token hi => ?_⟩
    · rw [List.getElem?_append_left (List.getElem?_eq_some_iff.mp hi).1, hi]
    · rw [Nat.add_assoc]
      refine h _ token ?_
      rw [List.getElem?_append_right (Nat.le_add_right _ _), Nat.add_sub_cancel_left, hi]
  · rintro ⟨hf, hb⟩ i token hi
    rw [List.getElem?_append] at hi
    split at hi
    · exact hf i token hi
    · rename_i bound
      have := hb _ token hi
      rwa [Nat.add_assoc, Nat.add_sub_cancel' (Nat.le_of_not_lt bound)] at this

theorem TokenStream.Continues.head {source : TokenStream α} {n : Nat} {tokens : List (Token α)}
    {next : Token α} (h : source.Continues n (tokens ++ [next])) :
    (source n).value = .ok (tokens.headD next) := by
  cases tokens with
  | nil => exact h 0 next rfl
  | cons token tokens => exact h 0 token rfl

/-- The first part of a stream may be followed by a token of the second one, or by the last. -/
theorem TokenStream.Continues.front {source : TokenStream α} {n : Nat} {front back : List (Token α)} {next : Token α}
    (h : source.Continues n (front ++ (back ++ [next]))) : source.Continues n (front ++ [back.headD next]) := by
  obtain ⟨first, others⟩ := continues_append.mp h
  refine continues_append.mpr ⟨first, fun i token hi => ?_⟩
  cases i with
  | zero => exact Option.some.inj hi ▸ others.head
  | succ i => cases hi

/-- A configuration in which no token has been rejected. -/
def Configuration.clean (stack : List (Entry α)) (lookahead : Token α) (read : Nat) : Configuration α :=
  ⟨stack, lookahead, none, none, false, 0, read⟩

/-! ## Values in states -/

/-- The state that a symbol leads to. -/
def nextState (states : List Collection.State) (i : Nat) (symbol : Symbol) : Nat :=
  (states[i]?.bind fun state => state.transitions.lookup symbol).getD 0

theorem nextState_eq {states : List Collection.State} {state : Collection.State} {symbol : Symbol} {i target : Nat}
    (hs : states[i]? = some state) (leads : state.transitions.lookup symbol = some target) :
    nextState states i symbol = target := by rw [nextState, hs, Option.bind_some, leads, Option.getD_some]

namespace Grammar
variable {grammar : Grammar α} (machine : Machine α) (states : List Collection.State)

mutual

/-- What a machine makes of a tree that begins in a state, if no token has been rejected. -/
def Tree.valueIn {symbol : Symbol} (i : Nat) : grammar.Tree symbol → α
  | .leaf token => token.value
  | .node _ production _ _ children => production.action.apply (machine.fallbackError i) (children.valuesIn i)

/-- What a machine makes of the trees of a word that begins in a state. -/
def Forest.valuesIn {symbols : List Symbol} (i : Nat) : grammar.Forest symbols → List α
  | .nil => []
  | @Forest.cons _ _ symbol _ tree rest => tree.valueIn i :: rest.valuesIn (nextState states i symbol)

end

mutual

/-- Where no production takes an error, the state does not matter. -/
theorem Tree.valueIn_eq {symbol : Symbol} (tree : grammar.Tree symbol) (ordinary : tree.IsOrdinary) (i : Nat) :
    tree.valueIn machine states i = tree.value := by
  match tree with
  | .leaf token => rfl
  | .node _ production _ error children =>
    rw [Tree.valueIn, Tree.value, children.valuesIn_eq ordinary.2 i]
    exact ordinary.1.apply_eq _ _ _

theorem Forest.valuesIn_eq {symbols : List Symbol} (forest : grammar.Forest symbols) (ordinary : forest.IsOrdinary)
    (i : Nat) : forest.valuesIn machine states i = forest.values := by
  match forest with
  | .nil => rfl
  | .cons tree rest =>
    rw [Forest.valuesIn, Forest.values, tree.valueIn_eq ordinary.1 i, rest.valuesIn_eq ordinary.2]

end

end Grammar

/-! ## Runs -/

variable [Inhabited α]

namespace Machine
variable {machine : Machine α} {source : TokenStream α} {stack : List (Entry α)} {lookahead : Token α} {n : Nat}

theorem step_eq {c : Configuration α} (known : c.lookahead.terminal < machine.table.actions.terminalCount) :
    machine.step source c = match machine.action (topState c.stack) c.lookahead.terminal with
      | .shift next => machine.shift source c next
      | .reduce number => machine.reduce c number
      | .accept => do
        .report (.accept (topState c.stack))
        return .finished (.ok ((c.stack.head?.map (·.value)).getD default))
      | .error => machine.reject source c := if_neg (Nat.not_le.mpr known)

theorem running_shift {next : Nat} {token : Token α}
    (known : lookahead.terminal < machine.table.actions.terminalCount)
    (action : machine.action (topState stack) lookahead.terminal = .shift next)
    (read : (source n).value = .ok token) : (machine.step source (.clean stack lookahead n)).value =
      .running (.clean (⟨next, lookahead.value⟩ :: stack) token (n + 1)) := by
  rw [step_eq (c := .clean stack lookahead n) known]
  simp only [Configuration.clean, action, value_shift, value_advance, read]

theorem running_reduce {number next : Nat} {reduction : Reduction} {semantic : SemanticAction α}
    (known : lookahead.terminal < machine.table.actions.terminalCount)
    (action : machine.action (topState stack) lookahead.terminal = .reduce number)
    (hreduction : machine.table.reductions[number]? = some reduction)
    (hsemantic : machine.semantics[number]? = some semantic)
    (goto : machine.table.gotos.get? (topState (stack.drop reduction.popCount)) reduction.result = some next) :
    (machine.step source (.clean stack lookahead n)).value =
      .running (.clean (⟨next, semantic.apply (machine.fallbackError (topState (stack.drop reduction.popCount)))
        ((stack.take reduction.popCount).map (·.value)).reverse⟩ :: stack.drop reduction.popCount)
          lookahead n) := by
  rw [step_eq (c := .clean stack lookahead n) known]
  simp only [Configuration.clean, action, reduce, hreduction, hsemantic, goto]
  cases semantic <;> rfl

theorem finished_accept {c : Configuration α} (known : c.lookahead.terminal < machine.table.actions.terminalCount)
    (action : machine.action (topState c.stack) c.lookahead.terminal = .accept) :
    (machine.step source c).value = .finished (.ok ((c.stack.head?.map (·.value)).getD default)) := by
  rw [step_eq known, action]
  rfl

/-- Whether a machine does what the states of a grammar ask for, and nothing else. -/
structure Realizes (grammar : Grammar α) (states : List Collection.State) (machine : Machine α) : Prop where
  wellFormed : grammar.cfg.WellFormed
  isAutomaton : grammar.cfg.IsAutomaton states
  drives : machine.Drives grammar states
  fully : machine.DrivesFully grammar states

end Machine

namespace Grammar
variable {grammar : Grammar α} {states : List Collection.State} {machine : Machine α}
  {source : TokenStream α}

omit [Inhabited α] in
theorem headD_append {tokens others : List (Token α)} {next : Token α} :
    (tokens ++ others).headD next = tokens.headD (others.headD next) := by
  cases tokens <;> rfl

omit [Inhabited α] in
/-- What follows the trees of a word is foreseen in front of the word. -/
theorem Forest.contains_following {item : Item} {symbol : Symbol} {symbols : List Symbol}
    (wf : grammar.cfg.WellFormed) (rest : grammar.Forest symbols)
    (hword : (grammar.cfg.symbolsOf item.core.production).drop item.core.dot = symbol :: symbols)
    {next : Token α} (ht : item.lookahead.contains next.terminal) :
    (grammar.cfg.following grammar.cfg.firstSets item).contains (rest.yield.headD next).terminal := by
  have closed := Cfg.firstSets_closed wf
  have behind : (grammar.cfg.symbolsOf item.core.production).drop (item.core.dot + 1) = symbols := by
    rw [← List.drop_drop, hword]
    rfl
  rw [Cfg.following, behind]
  -- an empty word hands the lookahead on, and any other starts with a terminal that is known to start it
  cases hy : rest.yield with
  | nil =>
    have nullable := rest.firstOf_of_yield_nil closed hy
    simp only [nullable, if_true]
    exact TerminalSet.contains_union.mpr (.inr ht)
  | cons token tokens =>
    have first := rest.firstOf_of_yield closed hy
    simp only
    split
    · exact TerminalSet.contains_union.mpr (.inl first)
    · exact first

mutual

/-- **A tree is parsed.**  In a state with an item that has the symbol behind the dot, a run takes the tokens of
the tree off the source and puts its value on the stack. -/
theorem Tree.runs (realizes : machine.Realizes grammar states) {symbol : Symbol} (tree : grammar.Tree symbol)
    {stack : List (Entry α)} {state : Collection.State} {item : Item}
    (top : states[topState stack]? = some state) (hm : item ∈ state.items.items)
    (hnext : grammar.cfg.nextSymbol? item.core = some symbol) {next : Token α}
    (follows : (grammar.cfg.following grammar.cfg.firstSets item).contains next.terminal) {n : Nat}
    (tokens : source.Continues n (tree.yield ++ [next])) : ∃ target,
      state.transitions.lookup symbol = some target ∧
      machine.Runs source tree.steps (.clean stack (tree.yield.headD next) (n + 1))
        (.clean (⟨target, tree.valueIn machine states (topState stack)⟩ :: stack) next
          (n + 1 + tree.yield.length)) := by
  obtain ⟨target, _, leads, -, -⟩ := realizes.isAutomaton.leads _ _ top item hm symbol hnext
  refine ⟨target, leads, ?_⟩
  match tree with
  | .leaf token =>
    have known : token.terminal < grammar.terminals.length :=
      realizes.wellFormed.lt_of_mem_symbolsOf (List.mem_of_getElem? hnext)
    have action := realizes.fully.shift _ _ _ _ top leads known
    rw [← realizes.drives.terminalCount_eq] at known
    exact .single (Machine.running_shift known action (tokens 1 next rfl))
  | .node p production there error children =>
    -- the closure has the production with the lookahead behind the tree
    have answered := (realizes.isAutomaton.sound _ _ top).isClosure.answered item hm _ hnext p
      (Cfg.mem_productionsOf.mpr (resultOf?_eq there))
    have begun := (state.items.covers_iff.mp answered).2 _ follows
    have whole : (grammar.cfg.symbolsOf p).drop 0 = production.symbols := symbolsOf_eq there
    obtain ⟨pushed, last, topLast, complete, length, values, runs⟩ :=
      children.runs realizes top whole begun tokens
    rw [Nat.zero_add] at complete
    obtain ⟨number, action, reduces⟩ := realizes.fully.reduce _ _ _ _ _ topLast there complete
    have known : next.terminal < grammar.terminals.length :=
      (realizes.isAutomaton.sound _ _ topLast).isClosure.fits.lt_of_allows complete
    rw [← realizes.drives.terminalCount_eq] at known
    -- the reduction uncovers the state that the children were begun in
    have under : (pushed ++ stack).drop production.symbols.length = stack := List.drop_left' length
    have goto := realizes.drives.goto _ _ _ _ top leads
      (realizes.wellFormed.result_lt _ (mem_rules_of_getElem? there))
    have reduced : (machine.step source
        (.clean (pushed ++ stack) next (n + 1 + children.yield.length))).value = _ :=
      Machine.running_reduce known action reduces.reduction reduces.action (by rw [under]; exact goto)
    simp only [under, List.take_left' length, values] at reduced
    exact runs.trans (.single reduced)

/-- **The trees of a word are parsed**, one behind the other. -/
theorem Forest.runs (realizes : machine.Realizes grammar states) {symbols : List Symbol}
    (forest : grammar.Forest symbols) {stack : List (Entry α)}
    {state : Collection.State} {p dot : Nat} (top : states[topState stack]? = some state)
    (hword : (grammar.cfg.symbolsOf p).drop dot = symbols) {next : Token α}
    (allows : state.items.Allows ⟨p, dot⟩ next.terminal) {n : Nat}
    (tokens : source.Continues n (forest.yield ++ [next])) : ∃ pushed state',
      states[topState (pushed ++ stack)]? = some state' ∧
      state'.items.Allows ⟨p, dot + symbols.length⟩ next.terminal ∧
      pushed.length = symbols.length ∧
      (pushed.map (·.value)).reverse = forest.valuesIn machine states (topState stack) ∧
      machine.Runs source forest.steps (.clean stack (forest.yield.headD next) (n + 1))
        (.clean (pushed ++ stack) next (n + 1 + forest.yield.length)) := by
  match forest with
  | .nil => exact ⟨[], state, top, allows, rfl, rfl, .refl _⟩
  | @Forest.cons _ _ symbol symbols tree rest =>
    obtain ⟨item, hm, hcore, ht⟩ := allows
    obtain ⟨rfl, rfl⟩ : item.core.production = p ∧ item.core.dot = dot :=
      ⟨congrArg Core.production hcore, congrArg Core.dot hcore⟩
    have hnext : grammar.cfg.nextSymbol? item.core = some symbol := by
      rw [Cfg.nextSymbol?, ← List.head?_drop, hword]
      rfl
    have tokens : source.Continues n (tree.yield ++ (rest.yield ++ [next])) :=
      List.append_assoc .. ▸ tokens
    have others := (TokenStream.continues_append.mp tokens).2
    -- the first tree runs up to the token behind it, which may belong to the rest or follow the word
    obtain ⟨target, leads, runs⟩ := tree.runs realizes top hm hnext
      (rest.contains_following realizes.wellFormed hword ht) tokens.front
    obtain ⟨state', top', -, carried⟩ := realizes.isAutomaton.exists_advanced top hm hnext leads
    have allows' : state'.items.Allows ⟨item.core.production, item.core.dot + 1⟩ next.terminal := carried _ ht
    have behind : (grammar.cfg.symbolsOf item.core.production).drop (item.core.dot + 1) = symbols := by
      rw [← List.drop_drop, hword]
      rfl
    let value := tree.valueIn machine states (topState stack)
    have topPushed : states[topState (⟨target, value⟩ :: stack)]? = some state' := top'
    obtain ⟨pushed, last, topLast, complete, length, values, runs'⟩ :=
      rest.runs realizes topPushed behind allows' others
    refine ⟨pushed ++ [⟨target, value⟩], last, ?_, ?_, ?_, ?_, ?_⟩
    · rwa [List.append_assoc]
    · rwa [List.length_cons, ← Nat.add_assoc, Nat.add_right_comm]
    · rw [List.length_append, length]
      rfl
    · rw [List.map_append, List.reverse_append, values, Forest.valuesIn, nextState_eq top leads]
      rfl
    · rw [Forest.yield, headD_append, List.length_append, List.append_assoc, ← Nat.add_assoc]
      have runs' : machine.Runs source rest.steps
          (.clean (⟨target, value⟩ :: stack) (rest.yield.headD next) (n + 1 + tree.yield.length)) _ :=
        Nat.add_right_comm n tree.yield.length 1 ▸ runs'
      exact runs.trans runs'

end

/-- A tree of the start symbol is parsed from the beginning to the end. -/
theorem Tree.runs_begin (realizes : machine.Realizes grammar states)
    (tree : grammar.Tree (.nonTerminal grammar.start)) {last : Token α}
    (atEnd : last.terminal = endTerminal) (tokens : source.Begins (tree.yield ++ [last])) : ∃ finish,
      machine.Runs source tree.steps (.clean [] (tree.yield.headD last) 1) finish ∧ finish.errors = 0 ∧
      (machine.step source finish).value = .finished (.ok (tree.valueIn machine states 0)) := by
  obtain ⟨state, top, cores, allowed⟩ := realizes.isAutomaton.start
  have sound := realizes.isAutomaton.sound _ _ top
  obtain ⟨item, hm, hcore, ht⟩ := sound.isClosure.kernel_le.allows _ _ allowed
  have hword : (grammar.cfg.symbolsOf item.core.production).drop item.core.dot =
      [.nonTerminal grammar.start] := by
    rw [hcore, Cfg.symbolsOf_augmented]
    rfl
  have hnext : grammar.cfg.nextSymbol? item.core = some (.nonTerminal grammar.start) := by
    rw [Cfg.nextSymbol?, ← List.head?_drop, hword]
    rfl
  have ht : item.lookahead.contains last.terminal := atEnd ▸ ht
  have topStart : states[topState ([] : List (Entry α))]? = some state := top
  obtain ⟨target, leads, runs⟩ := tree.runs realizes topStart hm hnext
    (Forest.nil.contains_following realizes.wellFormed hword ht) tokens.continues
  obtain ⟨state', top', complete, -⟩ := realizes.isAutomaton.exists_advanced top hm hnext leads
  rw [show item.core.advance = ⟨grammar.cfg.augmented, 1⟩ by rw [hcore]; rfl] at complete
  let value := tree.valueIn machine states 0
  have action : machine.action (topState [(⟨target, value⟩ : Entry α)]) last.terminal = .accept := by
    rw [atEnd]
    exact realizes.fully.accept _ _ top' complete
  have known : last.terminal < machine.table.actions.terminalCount := by
    rw [atEnd, realizes.drives.terminalCount_eq]
    exact realizes.wellFormed.endTerminal_lt
  exact ⟨_, runs, rfl, Machine.finished_accept known action⟩

/-- So is one without error productions, and what is made of it is its value. -/
theorem Tree.runs_start (realizes : machine.Realizes grammar states)
    (tree : grammar.Tree (.nonTerminal grammar.start)) (ordinary : tree.IsOrdinary) {last : Token α}
    (atEnd : last.terminal = endTerminal) (tokens : source.Begins (tree.yield ++ [last])) : ∃ finish,
      machine.Runs source tree.steps (.clean [] (tree.yield.headD last) 1) finish ∧ finish.errors = 0 ∧
      (machine.step source finish).value = .finished (.ok tree.value) :=
  tree.valueIn_eq machine states ordinary 0 ▸ tree.runs_begin realizes atEnd tokens

/-- A parse of the tokens of a tree comes to its value. -/
theorem Tree.value_parse (realizes : machine.Realizes grammar states)
    (tree : grammar.Tree (.nonTerminal grammar.start)) (ordinary : tree.IsOrdinary) {last : Token α}
    (atEnd : last.terminal = endTerminal) (tokens : source.Begins (tree.yield ++ [last])) {limit : Nat}
    (enough : tree.steps < limit) : (machine.parse source limit).value = some (.ok tree.value) := by
  obtain ⟨finish, runs, -, finished⟩ := tree.runs_start realizes ordinary atEnd tokens
  rw [Machine.value_parse, tokens.continues.head]
  exact runs.finish finished enough _

/-- No run over the tokens of a tree recovers. -/
theorem Tree.errors_eq_zero (realizes : machine.Realizes grammar states)
    (tree : grammar.Tree (.nonTerminal grammar.start)) (ordinary : tree.IsOrdinary) {last : Token α}
    (atEnd : last.terminal = endTerminal) (tokens : source.Begins (tree.yield ++ [last]))
    {c : Configuration α} (reaches : machine.Reaches source c) : c.errors = 0 := by
  obtain ⟨finish, runs, none, finished⟩ := tree.runs_start realizes ordinary atEnd tokens
  obtain ⟨_, ahead⟩ := reaches.runs tokens.continues.head runs finished
  exact Nat.eq_zero_of_le_zero (none ▸ ahead.errors_le)

end Grammar

/-- The machine of a grammar without precedence does what its states ask for. -/
theorem Grammar.realizes_of_toParser {grammar : Grammar α} (declared : grammar.Declared)
    (noPrecedence : grammar.HasNoPrecedence) {options : ParserOptions} {parser : Parser α}
    (compiled : (grammar.toParser options).run.value = .ok parser) :
    parser.machine.Realizes grammar (grammar.cfg.collection options.mergeCores) := by
  have wf := declared.wellFormed
  obtain ⟨table, built, machine⟩ := Grammar.table_of_toParser compiled
  have automaton := Cfg.isAutomaton_collection wf options.mergeCores
  rw [machine]
  exact ⟨wf, automaton, Machine.drives_ofGrammar built options automaton,
    Machine.drivesFully_ofGrammar built options wf automaton noPrecedence⟩

end TableParsing
