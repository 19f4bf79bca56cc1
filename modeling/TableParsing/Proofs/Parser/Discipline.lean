import TableParsing.Proofs.Parser.Attribution

/-! # What lies on the stacks

The driver has the states of a parse in one array and the values in another.  This module says what it can rely on when
it takes something off them, in every place of a run, and after each pop of a recovery.

The two are **in step** (`Stacks.InStep`): there is one state more than there are values, with state 0 at the bottom and
a `Path` through the automaton up from it, spelled by the symbols of its transitions.  What an item of the top state has
in front of its dot is spelled by the topmost states (`Supported.spelled`), so a reduction finds the whole right-hand
side of its production, uncovers a state that leads on behind the result, and reads that target from the goto table
(`Driver.Finds`).  So no run ends for want of a goto, nothing is taken off that is not there, and what is accepted is
one value. -/

namespace TableParsing

variable {α : Type}

/-! ## Paths -/

/-- Whether each state, the newest first, is the target of the state below it on a symbol; the symbols, the oldest
first, spell the path. -/
inductive Path (automaton : List Collection.State) : List Nat → List Symbol → Prop
  | single (s : Nat) : Path automaton [s] []
  | step {below : List Nat} {word : List Symbol} {s next : Nat} {symbol : Symbol} {state : Collection.State}
      (h : Path automaton below word) (top : below.head? = some s) (there : automaton[s]? = some state)
      (leads : state.transitions.lookup symbol = some next) : Path automaton (next :: below) (word ++ [symbol])

theorem Path.length_eq {automaton : List Collection.State} {ns : List Nat} {word : List Symbol}
    (h : Path automaton ns word) : ns.length = word.length + 1 := by
  induction h with
  | single s => rfl
  | step h _ _ _ ih => simp [ih]

namespace Supported
variable {grammar : Grammar α} {automaton : List Collection.State} {stack : List (Entry α)}
  {leaves : List (Token α)} {state : Collection.State} {p dot : Nat}

/-- What is left when entries are taken off is supported too. -/
theorem drop (h : Supported grammar automaton stack leaves) (n : Nat) :
    ∃ front, Supported grammar automaton (stack.drop n) front := by
  rw [← List.take_append_drop n stack] at h
  obtain ⟨front, back, -, supported⟩ := h.of_append
  exact ⟨front, supported⟩

theorem path (h : Supported grammar automaton stack leaves) : ∃ word, Path automaton (statesOf stack) word := by
  induction h with
  | bottom => exact ⟨[], .single 0⟩
  | push h tree top leads ih =>
    obtain ⟨word, path⟩ := ih
    exact ⟨_, path.step (head?_statesOf _) top leads⟩

/-- **The topmost states spell what an item has in front of its dot.** -/
theorem spelled (isAutomaton : grammar.cfg.IsAutomaton automaton) (h : Supported grammar automaton stack leaves)
    (top : automaton[topState stack]? = some state) (hc : state.items.Has ⟨p, dot⟩) :
    Path automaton ((statesOf stack).take (dot + 1)) ((grammar.cfg.symbolsOf p).take dot) := by
  induction dot generalizing stack leaves state with
  | zero =>
    have first : (statesOf stack).take 1 = [topState stack] := by cases stack <;> rfl
    rw [Nat.zero_add, first, List.take_zero]
    exact .single _
  | succ dot ih =>
    obtain ⟨symbol, tree, next, rest, front, below, rfl, rfl, h, there, leads, hsymbol, hold⟩ :=
      h.advanced isAutomaton top hc
    have step : (statesOf (⟨next, tree.value⟩ :: rest)).take (dot + 1 + 1) =
        next :: (statesOf rest).take (dot + 1) := rfl
    have head : ((statesOf rest).take (dot + 1)).head? = some (topState rest) := by
      rw [List.head?_take, if_neg (Nat.succ_ne_zero dot), head?_statesOf]
    have word : (grammar.cfg.symbolsOf p).take (dot + 1) = (grammar.cfg.symbolsOf p).take dot ++ [symbol] := by
      rw [List.take_add_one, hsymbol]
      rfl
    rw [step, word]
    exact (ih h there hold).step head there leads

end Supported

/-! ## The discipline -/

/-- Whether two stacks are in step: one state more than values, state 0 at the bottom, and each state above it the
target of the one below. -/
structure Stacks.InStep (automaton : List Collection.State) (pair : Stacks α) : Prop where
  size_eq : pair.values.size + 1 = pair.states.size
  bottom : pair.states[0]? = some 0
  path : ∃ word, Path automaton pair.states.toList.reverse word

namespace Driver

/-- What a reduction finds: its production, whose right-hand side the topmost states spell, with a value for each of
its symbols, and below them stacks in step, with a state on top that leads on behind the result. -/
structure Finds (grammar : Grammar α) (automaton : List Collection.State) (machine : Machine α)
    (d : Driver α) (number p : Nat) (production : Production α) (next : Nat) : Prop where
  production_eq : grammar.productions[p]? = some production
  reduces : machine.Reduces number p production
  spelled : Path automaton (d.states.toList.reverse.take (production.symbols.length + 1)) production.symbols
  /-- There are as many values as are taken off. -/
  values_le : production.symbols.length ≤ d.values.size
  /-- There are more states than are taken off. -/
  states_lt : production.symbols.length < d.states.size
  /-- The stacks that are left are in step. -/
  left : (d.cut production.symbols.length).InStep automaton
  /-- The goto row of the uncovered state has a target for the result, and the goto table gives that one. -/
  goto : ∃ uncovered under, d.states[d.states.size - 1 - production.symbols.length]? = some uncovered ∧
    (d.cut production.symbols.length).top = uncovered ∧ automaton[uncovered]? = some under ∧
    (grammar.cfg.gotoRow under)[production.result]? = some (some next) ∧
    machine.table.gotos.get? uncovered production.result = some next

/-- What holds of the stacks in every place of a run. -/
structure Disciplined (grammar : Grammar α) (automaton : List Collection.State) (machine : Machine α)
    (d : Driver α) : Prop where
  inStep : d.toStacks.InStep automaton
  /-- A recovery that goes back leaves the stacks in step with each pop, until the states are all gone. -/
  unwinding : ∀ n < d.states.size, (Stacks.pop^[n] d.toStacks).InStep automaton
  reduce : ∀ number, machine.action d.top d.lookahead.terminal = .reduce number →
    ∃ p production next, d.Finds grammar automaton machine number p production next
  accept : machine.action d.top d.lookahead.terminal = .accept → ∃ v, d.values = #[v]

end Driver

/-! ### Stacks of entries -/

namespace Stacks
variable (stack : List (Entry α))

theorem iterate_pop_ofEntries {n : Nat} (h : n ≤ stack.length) :
    pop^[n] (ofEntries stack) = ofEntries (stack.drop n) := by
  induction n generalizing stack with
  | zero => rfl
  | succ n ih =>
    cases stack with
    | nil => cases h
    | cons entry stack =>
      rw [Function.iterate_succ_apply, pop_ofEntries, ih stack (Nat.le_of_succ_le_succ h), List.drop_succ_cons]

/-- The stacks of trees are in step. -/
theorem inStep_ofEntries {grammar : Grammar α} {automaton : List Collection.State} {leaves : List (Token α)}
    (h : Supported grammar automaton stack leaves) : (ofEntries stack).InStep automaton where
  size_eq := by rw [size_values_ofEntries, size_states_ofEntries]
  bottom := by simp [ofEntries, statesOf]
  path := by
    rw [reverse_states_ofEntries]
    exact h.path

end Stacks

namespace Driver

section Discipline
variable {grammar : Grammar α} {automaton : List Collection.State} {machine : Machine α}
  {c : Configuration α} {leaves : List (Token α)} {number : Nat}

/-- A reduction that the table asks for finds what it needs. -/
theorem exists_finds (wf : grammar.cfg.WellFormed) (isAutomaton : grammar.cfg.IsAutomaton automaton)
    (drives : machine.Drives grammar automaton) (h : Supported grammar automaton c.stack leaves)
    (action : machine.action (topState c.stack) c.lookahead.terminal = .reduce number) :
    ∃ p production next, (ofConfiguration c).Finds grammar automaton machine number p production next := by
  obtain ⟨state, p, production, top, hp, hc, reduces⟩ := drives.reduce _ _ _ action
  obtain ⟨next, under, hunder, leads, -⟩ := h.reduce isAutomaton top hp hc default
  have spelled := h.spelled isAutomaton top hc
  rw [Grammar.symbolsOf_eq hp, List.take_length] at spelled
  -- a path is one longer than its word, so all of its states were there to be taken
  have length_le : production.symbols.length ≤ c.stack.length := by
    have length := spelled.length_eq
    rw [List.length_take, length_statesOf] at length
    omega
  have result : production.result < grammar.cfg.nonTerminalCount :=
    wf.result_lt _ (Grammar.mem_rules_of_getElem? hp)
  have states : (ofConfiguration c).states.toList.reverse = statesOf c.stack :=
    Stacks.reverse_states_ofEntries c.stack
  have size : (ofConfiguration c).states.size = c.stack.length + 1 := Stacks.size_states_ofEntries c.stack
  have cut : (ofConfiguration c).cut production.symbols.length = _ := Stacks.cut_ofEntries c.stack _
  refine ⟨p, production, next, hp, reduces, ?_, ?_, ?_, ?_, _, under, ?_, ?_, hunder, ?_, ?_⟩
  · rwa [states]
  · exact length_le.trans_eq (Stacks.size_values_ofEntries c.stack).symm
  · rw [size]
    exact Nat.lt_succ_of_le length_le
  · rw [cut]
    obtain ⟨front, supported⟩ := h.drop production.symbols.length
    exact Stacks.inStep_ofEntries _ supported
  · exact Stacks.getElem?_states_ofEntries c.stack length_le
  · exact (congrArg Stacks.top cut).trans (Stacks.top_ofEntries _)
  · rw [Cfg.gotoRow, List.getElem?_map, List.getElem?_range result, Option.map_some, leads]
  · exact drives.goto _ _ _ under hunder leads result

theorem disciplined (wf : grammar.cfg.WellFormed) (isAutomaton : grammar.cfg.IsAutomaton automaton)
    (drives : machine.Drives grammar automaton) (h : Supported grammar automaton c.stack leaves) :
    (ofConfiguration c).Disciplined grammar automaton machine where
  inStep := Stacks.inStep_ofEntries _ h
  unwinding n bound := by
    have size : (ofConfiguration c).states.size = c.stack.length + 1 := Stacks.size_states_ofEntries c.stack
    rw [size] at bound
    have popped : Stacks.pop^[n] (ofConfiguration c).toStacks = _ :=
      Stacks.iterate_pop_ofEntries c.stack (Nat.le_of_lt_succ bound)
    obtain ⟨front, supported⟩ := h.drop n
    rw [popped]
    exact Stacks.inStep_ofEntries _ supported
  reduce number action := by
    rw [top_ofConfiguration] at action
    exact exists_finds wf isAutomaton drives h action
  accept action := by
    rw [top_ofConfiguration] at action
    obtain ⟨-, state, top, hc⟩ := drives.accept _ _ action
    obtain ⟨tree, -, values⟩ := h.accept isAutomaton top hc
    refine ⟨tree.value, ?_⟩
    change (c.stack.map (·.value)).reverse.toArray = _
    rw [values]
    rfl

/-! ## No goto is missing -/

variable {source : TokenStream α} {s : Nat} {symbol : String}

variable [Inhabited α]

/-- **A step of a disciplined run finds its goto.** -/
theorem Disciplined.step_ne_missingGoto (h : (ofConfiguration c).Disciplined grammar automaton machine) :
    (machine.step source c).value ≠ .finished (.error (.missingGoto s symbol)) := by
  intro missing
  cases Machine.stop_of_finished missing with
  | missingGoto reduce missing =>
    rw [← top_ofConfiguration] at reduce
    obtain ⟨p, production, next, finds⟩ := h.reduce _ reduce
    obtain ⟨uncovered, under, -, top, -, -, goto⟩ := finds.goto
    have top : topState (c.stack.drop production.symbols.length) = uncovered := by
      rw [← Stacks.top_ofEntries, ← Stacks.cut_ofEntries]
      exact top
    have none := missing _ _ finds.reduces.reduction finds.reduces.action
    cases goto.symm.trans (top ▸ none)

end Discipline
end Driver

/-! ## Parsers -/

variable [Inhabited α]

/-- **The stacks of a parser never run dry.**  In every place of every run the two stacks are in step, also after each
pop of a recovery, a reduction finds its right-hand side on top and a goto behind it, and there is one value to be
accepted.  So no parse ends for want of a goto. -/
theorem stacks_disciplined {grammar : Grammar α} (declared : grammar.Declared) {options : ParserOptions}
    {parser : Parser α} (compiled : (grammar.toParser options).run.value = .ok parser) (source : TokenStream α) :
    (∀ d, Driver.Reaches parser.machine source d →
      d.Disciplined grammar (grammar.cfg.collection options.mergeCores) parser.machine) ∧
    ∀ limit s symbol, (parser.machine.drive source limit).value ≠ some (.error (.missingGoto s symbol)) := by
  have wf := declared.wellFormed
  obtain ⟨table, built, machine⟩ := Grammar.table_of_toParser compiled
  have automaton := Cfg.isAutomaton_collection wf options.mergeCores
  have drives : parser.machine.Drives grammar (grammar.cfg.collection options.mergeCores) :=
    machine ▸ Machine.drives_ofGrammar built options automaton
  have disciplined : ∀ c, parser.machine.Reaches source c →
      (Driver.ofConfiguration c).Disciplined grammar (grammar.cfg.collection options.mergeCores) parser.machine := by
    intro c reaches
    obtain ⟨tokens, leaves, explains⟩ := Explains.of_reaches wf automaton drives reaches
    exact Driver.disciplined wf automaton drives explains.supported
  refine ⟨?_, ?_⟩
  · intro d h
    obtain ⟨c, reaches, rfl⟩ := h.exists_configuration
    exact disciplined c reaches
  · intro limit s symbol parsed
    rw [Machine.drive_eq_parse] at parsed
    obtain ⟨last, reaches, finish⟩ := Machine.exists_finish_of_value_parse parsed nofun
    exact (disciplined last reaches).step_ne_missingGoto finish

/-- Behind two recoveries three values lie on the stack, and a reduction takes them all. -/
theorem stacks_disciplined_nested : ∃ parser : Parser String, (nested.toParser {}).run.value = .ok parser ∧
    ∃ d number next, Driver.Reaches parser.machine nested.source d ∧ d.errors = 2 ∧
      d.toStacks.InStep (nested.cfg.collection true) ∧ d.values.size = 3 ∧ d.states.size = 4 ∧
      (Stacks.pop^[2] d.toStacks).InStep (nested.cfg.collection true) ∧
      parser.machine.action d.top d.lookahead.terminal = .reduce number ∧
      d.Finds nested (nested.cfg.collection true) parser.machine number 0 nested.outer next ∧
      (parser.machine.drive nested.source 9).value ≠ some (.error (.missingGoto 0 "s")) := by
  obtain ⟨parser, compiled⟩ := nested.exists_toParser {}
  obtain ⟨i, j, c, -, number, attributes, -, action, reduces, -⟩ := nested.exists_outer compiled
  obtain ⟨disciplined, present⟩ := stacks_disciplined nested.declared compiled nested.source
  have disciplined := disciplined _ attributes.reaches.ofConfiguration
  have length : c.stack.length = 3 := attributes.attributed.length_eq.symm
  have values : (Driver.ofConfiguration c).values.size = 3 := (Stacks.size_values_ofEntries c.stack).trans length
  have states : (Driver.ofConfiguration c).states.size = 4 :=
    (Stacks.size_states_ofEntries c.stack).trans (congrArg Nat.succ length)
  rw [← Driver.top_ofConfiguration] at action
  obtain ⟨p, production, next, finds⟩ := disciplined.reduce number action
  have same : 0 = p :=
    congrArg Reduction.production (Option.some.inj (reduces.reduction.symm.trans finds.reduces.reduction))
  subst same
  cases (finds.production_eq : some nested.outer = some production)
  exact ⟨parser, compiled, _, number, next, attributes.reaches.ofConfiguration, attributes.attributed.errors_eq,
    disciplined.inStep, values, states, disciplined.unwinding 2 (states ▸ by decide), action, finds, present 9 0 "s"⟩

end TableParsing
