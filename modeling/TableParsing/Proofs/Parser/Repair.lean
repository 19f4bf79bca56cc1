import TableParsing.Proofs.Parser.Attribution

/-! # What is parsed derives

What a parser makes of its tokens is the value of a derivation tree.  This holds for **every** grammar that a parser is
made from, with precedence and recovery: precedence only takes actions away, and what a recovery does shows in the
yield. -/

namespace TableParsing

variable {α : Type} [Inhabited α]

/-! ## Two errors around a letter -/

namespace nested

/-- A tree of the other symbol is an error token. -/
theorem exists_error (tree : nested.Tree (.nonTerminal 1)) : ∃ token, tree.yield = [token] ∧ token.terminal = 1 := by
  obtain ⟨p, production, children, there, result, same⟩ := tree.exists_children rfl
  match p, there with
  | 0, there =>
    cases there
    cases result
  | 1, there =>
    cases there
    match children with
    | .cons error .nil =>
      obtain ⟨token, yields, terminal⟩ := error.exists_token rfl
      exact ⟨token, by rw [same, Grammar.Forest.yield, yields]; rfl, terminal⟩

/-- Whatever derives from the grammar is an error, the letter x and another error. -/
theorem terminals_yield (tree : nested.Tree (.nonTerminal 0)) : tree.yield.map (·.terminal) = [1, 2, 1] := by
  obtain ⟨p, production, children, there, result, same⟩ := tree.exists_children rfl
  match p, there with
  | 0, there =>
    cases there
    match children with
    | .cons error (.cons letter (.cons other .nil)) =>
      obtain ⟨first, yields, terminal⟩ := error.exists_token rfl
      obtain ⟨second, yields', terminal'⟩ := letter.exists_token rfl
      obtain ⟨third, yields'', terminal''⟩ := exists_error other
      rw [same, Grammar.Forest.yield, Grammar.Forest.yield, Grammar.Forest.yield, yields, yields', yields'']
      simp [Grammar.Forest.yield, terminal, terminal', terminal'']
  | 1, there =>
    cases there
    cases result

theorem viable_accept : cfg.Viable [.nonTerminal 0] ⟨cfg.augmented, 1⟩ := .advance .start rfl

/-- The text x comes to the name of what was found behind the letter, after two recoveries. -/
theorem exists_parse {parser : Parser String} (compiled : (nested.toParser {}).run.value = .ok parser) :
    ∃ limit last, (parser.machine.parse source limit).value = some (.ok "$end") ∧ parser.machine.Reaches source last ∧
      (parser.machine.step source last).value = .finished (.ok "$end") ∧ last.errors = 2 ∧ last.read = 2 := by
  obtain ⟨i, j, c, last, number, attributes, running, action, reduces, atEnd, errors, count, along⟩ :=
    exists_outer compiled
  obtain ⟨e, ⟨next, stack⟩, gives⟩ := attributes.attributed.exists_receives running action reduces rfl
  have value : (last.stack.head?.map (·.value)).getD default = "$end" := by
    rw [stack]
    change e.found = _
    rw [(gives.latest _ rfl).1]
    change parser.machine.terminalName endTerminal = _
    rw [Machine.terminalName, terminalNames_eq compiled]
    rfl
  -- behind the start symbol the end of the input is accepted
  have decides := Grammar.decides_of_toParser declared hasNoPrecedence compiled
  have automaton : cfg.IsAutomaton (cfg.collection true) := decides.realizes.isAutomaton
  obtain ⟨state, top, follows⟩ := along.follows automaton
  have accept : parser.machine.action (topState last.stack) endTerminal = .accept :=
    decides.does top (Cfg.accept_mem_of_has ((follows.has_iff _).mpr viable_accept))
  have known : endTerminal < parser.machine.table.actions.terminalCount :=
    decides.realizes.drives.terminalCount_eq ▸ (by decide : endTerminal < 3)
  have upcoming : last.lookahead.terminal = endTerminal := congrArg Token.terminal atEnd
  have finish : (parser.machine.step source last).value = .finished (.ok "$end") :=
    value ▸ Machine.finished_accept (upcoming.symm ▸ known) (upcoming.symm ▸ accept)
  have reaches := attributes.reaches.step running
  obtain ⟨token, n, read, runs⟩ := reaches.exists_runs
  refine ⟨n + 1, last, ?_, reaches, finish, errors, count⟩
  rw [Machine.value_parse, read]
  exact runs.finish finish (Nat.lt_succ_self n) _

end nested

/-! ## Parsers -/

/-- **What is parsed derives from the grammar, whatever had to be mended.**  If a parse comes to a value, its
run has come to the end of the input, and that value belongs to a derivation tree of the start symbol.  The
yield of the tree is the tokens in front of the end, in which a recovery has put an error token in the place of
the tokens that it took off the stack or left out; if there was no recovery, it is those tokens themselves. -/
theorem parse_sound {grammar : Grammar α} (declared : grammar.Declared) {options : ParserOptions}
    {parser : Parser α} (compiled : (grammar.toParser options).run.value = .ok parser)
    (source : TokenStream α) (limit : Nat) {v : α}
    (parsed : (parser.machine.parse source limit).value = some (.ok v)) :
    ∃ (last : Configuration α) (tokens : List (Token α)) (tree : grammar.Tree (.nonTerminal grammar.start)),
      parser.machine.Reaches source last ∧
      (parser.machine.step source last).value = .finished (.ok v) ∧
      last.lookahead.terminal = endTerminal ∧
      source.Begins (tokens ++ [last.lookahead]) ∧ last.read = tokens.length + 1 ∧
      tree.value = v ∧
      Mended tokens tree.yield ∧ (last.errors = 0 → tree.yield = tokens) := by
  have wf := declared.wellFormed
  obtain ⟨table, built, machine⟩ := Grammar.table_of_toParser compiled
  have automaton := Cfg.isAutomaton_collection wf options.mergeCores
  have drives : parser.machine.Drives grammar (grammar.cfg.collection options.mergeCores) :=
    machine ▸ Machine.drives_ofGrammar built options automaton
  obtain ⟨last, reaches, finish⟩ := Machine.exists_finish_of_parse parsed
  obtain ⟨tokens, leaves, explains⟩ := Explains.of_reaches wf automaton drives reaches
  obtain ⟨atEnd, begins, tree, value, rfl, mended⟩ := explains.accept automaton drives finish
  exact ⟨last, tokens, tree, reaches, finish, atEnd, begins, explains.read_eq, value, mended,
    fun none => (explains.faithful none).2.2⟩

/-- In the text x an error is missing in front of the letter and behind it.  The two recoveries make a derivation tree
of it, with an error token on either side of the letter. -/
theorem parse_sound_nested : ∃ parser : Parser String, (nested.toParser {}).run.value = .ok parser ∧
    ∃ limit, (parser.machine.parse nested.source limit).value = some (.ok "$end") ∧
    ∃ (last : Configuration String) (tokens : List (Token String)) (tree : nested.Tree (.nonTerminal nested.start)),
      parser.machine.Reaches nested.source last ∧
      (parser.machine.step nested.source last).value = .finished (.ok "$end") ∧
      last.lookahead.terminal = endTerminal ∧
      nested.source.Begins (tokens ++ [last.lookahead]) ∧ last.read = tokens.length + 1 ∧
      tree.value = "$end" ∧
      Mended tokens tree.yield ∧ (last.errors = 0 → tree.yield = tokens) ∧
      last.errors = 2 ∧ tokens = [nested.letter] ∧ tree.yield.map (·.terminal) = [1, 2, 1] := by
  obtain ⟨parser, compiled⟩ := nested.exists_toParser {}
  obtain ⟨limit, other, parsed, reaches', finish', errors, count⟩ := nested.exists_parse compiled
  obtain ⟨last, tokens, tree, reaches, finish, atEnd, begins, read, value, mended, same⟩ :=
    parse_sound nested.declared compiled nested.source limit parsed
  cases reaches'.eq_of_finished finish' reaches finish
  have length : tokens.length = 1 := Nat.succ.inj (read.symm.trans count)
  obtain ⟨token, rfl⟩ := List.length_eq_one_iff.mp length
  have letter : token = nested.letter := (Except.ok.inj (begins 0 token rfl)).symm
  exact ⟨parser, compiled, limit, parsed, other, [token], tree, reaches, finish, atEnd, begins, read, value, mended,
    same, errors, congrArg (fun token => [token]) letter, nested.terminals_yield tree⟩

end TableParsing
