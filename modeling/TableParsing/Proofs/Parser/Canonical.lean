import TableParsing.Proofs.Parser.Correctness
import TableParsing.Proofs.Parser.Outcome
import TableParsing.Proofs.Table.Unmerged

/-! # Parsers with and without merging

A grammar without precedence that has a parser with merged cores has one in which the states are kept apart, and
without recovery **the two come to the same result** (`exists_canonical`).  Where tokens stop to fit depends on the
grammar alone, and so does what there is to be done about it: a parser with merged cores may reduce more before it
rejects a token, but it rejects the same one.  What derives from the grammar is parsed into the same tree.

There is one thing that tells the parsers apart.  An error production that is reduced although no token was rejected is
given an error with the number of a state, and **states have other numbers when they are merged**
(`merging_shows`).  So the values are the same if no action in the tree looks at that number. -/

namespace TableParsing

variable {α : Type}

/-- Whether the source comes to an error or to the end of the input. -/
def TokenStream.Ends (source : TokenStream α) : Prop :=
  ∃ n : Nat, ∀ token, (source n).value = .ok token → token.terminal = endTerminal

/-- Whether an action makes the same value for errors that differ in their state only. -/
def SemanticAction.IgnoresState (action : SemanticAction α) : Prop :=
  ∀ e s values, action.apply { e with state := s } values = action.apply e values

namespace Grammar
variable {grammar : Grammar α} {tokens : List (Token α)} {source : TokenStream α}

mutual

/-- Whether no action in the tree looks at the state of an error. -/
def Tree.IgnoresStates {symbol : Symbol} : grammar.Tree symbol → Prop
  | .leaf _ => True
  | .node _ production _ _ children => production.action.IgnoresState ∧ children.IgnoresStates

/-- Whether no action in the trees looks at the state of an error. -/
def Forest.IgnoresStates {symbols : List Symbol} : grammar.Forest symbols → Prop
  | .nil => True
  | .cons tree rest => tree.IgnoresStates ∧ rest.IgnoresStates

end

mutual

/-- In a grammar where no action looks at states none does in a tree. -/
theorem Tree.ignoresStates (ignore : ∀ production ∈ grammar.productions, production.action.IgnoresState)
    {symbol : Symbol} (tree : grammar.Tree symbol) : tree.IgnoresStates := by
  match tree with
  | .leaf token => exact trivial
  | .node _ production there _ children =>
    exact ⟨ignore production (List.mem_of_getElem? there), children.ignoresStates ignore⟩

theorem Forest.ignoresStates (ignore : ∀ production ∈ grammar.productions, production.action.IgnoresState)
    {symbols : List Symbol} (forest : grammar.Forest symbols) : forest.IgnoresStates := by
  match forest with
  | .nil => exact trivial
  | .cons tree rest => exact ⟨tree.ignoresStates ignore, rest.ignoresStates ignore⟩

end

/-- Whether two results are the same up to states: values of one tree, which are equal if its actions do not look at
states, syntax errors at the same token, or the same error of another kind. -/
inductive SameResult (grammar : Grammar α) (source : TokenStream α) :
    Except ParseError α → Except ParseError α → Prop
  | ok {v v' : α} {last : Token α} (tree : grammar.Tree (.nonTerminal grammar.start))
      (begins : source.Begins (tree.yield ++ [last])) (atEnd : last.terminal = endTerminal)
      (same : tree.IgnoresStates → v = v') : SameResult grammar source (.ok v) (.ok v')
  | syntaxError {e e' : SyntaxError} (found : e.found = e'.found) (text : e.text = e'.text) (span : e.span = e'.span) :
      SameResult grammar source (.error (.syntaxError e)) (.error (.syntaxError e'))
  | lexer (e : ScanError) : SameResult grammar source (.error (.lexer e)) (.error (.lexer e))
  | unknownToken (t : Nat) : SameResult grammar source (.error (.unknownToken t)) (.error (.unknownToken t))

/-! ## Where tokens stop to fit -/

/-- **Somewhere the tokens stop to fit**, if there is an end to them that no production mentions. -/
theorem NeverMentionsEnd.exists_stop (noEnd : grammar.NeverMentionsEnd) (ends : source.Ends) : ∃ tokens,
    grammar.Fits tokens ∧ source.Begins tokens ∧
      ∀ next, (source tokens.length).value = .ok next → ¬grammar.LeadsTo tokens next := by
  by_contra unbounded
  push Not at unbounded
  have fitting (n : Nat) : ∃ tokens, tokens.length = n ∧ grammar.Fits tokens ∧ source.Begins tokens := by
    induction n with
    | zero => exact ⟨[], rfl, .nil, nofun⟩
    | succ n ih =>
      obtain ⟨tokens, rfl, fits, begins⟩ := ih
      obtain ⟨next, read, leads⟩ := unbounded tokens fits begins
      exact ⟨tokens ++ [next], List.length_append, fits.snoc leads, begins.snoc read⟩
  obtain ⟨n, last⟩ := ends
  obtain ⟨tokens, rfl, fits, begins⟩ := fitting n
  obtain ⟨next, read, leads⟩ := unbounded tokens fits begins
  exact noEnd.not_leadsTo (last next read) leads

/-! ## Values -/

section Values
variable {machine machine' : Machine α} {states states' : List Collection.State}

theorem apply_fallbackError {action : SemanticAction α} (ignores : action.IgnoresState)
    (names : machine.terminalNames = machine'.terminalNames) (i i' : Nat) (values : List α) :
    action.apply (machine.fallbackError i) values = action.apply (machine'.fallbackError i') values := by
  have same : machine.fallbackError i = { machine'.fallbackError i' with state := i } := by
    rw [Machine.fallbackError, Machine.terminalName, names]
    rfl
  rw [same]
  exact ignores _ _ _

mutual

/-- Two machines make the same of a tree if its actions do not look at states. -/
theorem Tree.valueIn_congr {symbol : Symbol} (tree : grammar.Tree symbol) (ignores : tree.IgnoresStates)
    (names : machine.terminalNames = machine'.terminalNames) (i i' : Nat) :
    tree.valueIn machine states i = tree.valueIn machine' states' i' := by
  match tree with
  | .leaf token => rfl
  | .node _ production _ _ children =>
    rw [Tree.valueIn, Tree.valueIn, children.valuesIn_congr ignores.2 names i i']
    exact apply_fallbackError ignores.1 names i i' _

theorem Forest.valuesIn_congr {symbols : List Symbol} (forest : grammar.Forest symbols) (ignores : forest.IgnoresStates)
    (names : machine.terminalNames = machine'.terminalNames) (i i' : Nat) :
    forest.valuesIn machine states i = forest.valuesIn machine' states' i' := by
  match forest with
  | .nil => rfl
  | .cons tree rest =>
    rw [Forest.valuesIn, Forest.valuesIn, tree.valueIn_congr ignores.1 names i i',
      rest.valuesIn_congr ignores.2 names _ _]

end

end Values

/-! ## Results -/

variable [Inhabited α] {machine machine' : Machine α} {mergeCores mergeCores' : Bool}

/-- **Two machines for a grammar come to the same result.** -/
theorem exists_sameResult (decides : machine.Decides grammar mergeCores)
    (decides' : machine'.Decides grammar mergeCores')
    (names : machine.terminalNames = machine'.terminalNames) (noRecovery : machine.options.errorRecovery = false)
    (noRecovery' : machine'.options.errorRecovery = false) (noEnd : grammar.NeverMentionsEnd) (ends : source.Ends) :
    ∃ result result', machine.Yields source result ∧ machine'.Yields source result' ∧
      grammar.SameResult source result result' := by
  have realizes := decides.realizes
  have realizes' := decides'.realizes
  obtain ⟨tokens, fits, begins, stop⟩ := noEnd.exists_stop ends
  cases read : (source tokens.length).value with
  | error e =>
    exact ⟨_, _, fits.yields_lexer realizes begins read, fits.yields_lexer realizes' begins read, .lexer e⟩
  | ok next =>
    have misfit := stop next read
    have begins := begins.snoc read
    by_cases known : next.terminal < grammar.terminals.length
    swap
    · have unknown := Nat.le_of_not_lt known
      exact ⟨_, _, fits.yields_unknownToken realizes begins unknown, fits.yields_unknownToken realizes' begins unknown,
        .unknownToken _⟩
    by_cases finished : next.terminal = endTerminal ∧ grammar.IsSentence tokens
    · obtain ⟨atEnd, tree, rfl⟩ := finished
      exact ⟨_, _, tree.yields realizes atEnd begins, tree.yields realizes' atEnd begins,
        .ok tree begins atEnd fun ignores => tree.valueIn_congr ignores names 0 0⟩
    · have unfinished (atEnd : next.terminal = endTerminal) : ¬grammar.IsSentence tokens :=
        fun sentence => finished ⟨atEnd, sentence⟩
      obtain ⟨i, yields⟩ := fits.yields_syntaxError decides noRecovery begins known misfit unfinished
      obtain ⟨i', yields'⟩ := fits.yields_syntaxError decides' noRecovery' begins known misfit unfinished
      refine ⟨_, _, yields, yields', .syntaxError ?_ rfl rfl⟩
      rw [Machine.syntaxError, Machine.syntaxError, Machine.terminalName, Machine.terminalName, names]

/-- A grammar with a parser in which cores are merged has one in which they are not. -/
theorem exists_unmerged (declared : grammar.Declared) (noPrecedence : grammar.HasNoPrecedence) {options : ParserOptions}
    (merged : options.mergeCores = true) {parser : Parser α}
    (compiled : (grammar.toParser options).run.value = .ok parser) :
    ∃ canonical, (grammar.toParser { options with mergeCores := false }).run.value = .ok canonical := by
  have made := lexer_of_toParser compiled
  have agree := (decides_of_toParser declared noPrecedence compiled).agree
  rw [merged] at agree
  obtain ⟨table, built⟩ := exists_table_of_agree (Cfg.agree_unmerged declared.wellFormed agree)
  exact exists_toParser made built

end Grammar

/-! ## Nested letters -/

/-- The action that puts what it sees of an error in front of its second value. -/
def SemanticAction.noting (look : SyntaxError → Nat) : SemanticAction (List Nat) :=
  .ofError fun e values => look e :: values.getD 1 []

/-- The grammar of the texts a … a b … b with as many letters of either kind.  The value of a text lists what is seen of
the errors, from the outside to the inside. -/
def nest (look : SyntaxError → Nat) : Grammar (List Nat) where
  terminals := [⟨"$end", .reserved, none⟩, ⟨"error", .reserved, none⟩, ⟨"a", .literal "a", none⟩,
    ⟨"b", .literal "b", none⟩]
  nonTerminals := ["s"]
  productions := [⟨0, [.terminal 2, .nonTerminal 0, .terminal 3], .noting look, none⟩, ⟨0, [], .noting look, none⟩]
  start := 0
  ignored := []
  lexerOptions := {}

namespace nest
variable {look : SyntaxError → Nat}

theorem declared : (nest look).Declared :=
  ⟨_, .start (.production (.production (.nonTerminal .empty "s") 0 [.literal "a", .nonTerminal 0, .literal "b"]
    (.noting look)) 0 [] (.noting look)) 0, rfl⟩

theorem hasNoPrecedence : (nest look).HasNoPrecedence := by
  intro t ht
  simp only [nest, List.mem_cons, List.not_mem_nil, or_false] at ht
  rcases ht with rfl | rfl | rfl | rfl <;> rfl

theorem neverMentionsEnd : (nest look).NeverMentionsEnd := by
  intro production hp
  simp only [nest, List.mem_cons, List.not_mem_nil, or_false] at hp
  rcases hp with rfl | rfl <;> simp [endTerminal]

/-! ### What its states ask for -/

/-- The grammar without names and actions. -/
def cfg : Cfg where
  terminalCount := 4
  nonTerminalCount := 1
  rules := #[⟨0, [.terminal 2, .nonTerminal 0, .terminal 3]⟩, ⟨0, []⟩]
  start := 0

theorem wellFormed : cfg.WellFormed :=
  have declared : (nest default).Declared := declared
  declared.wellFormed

/-- The cores that a word leads to, with its latest symbol. -/
def places : List (Core × Option Symbol) :=
  [(⟨2, 0⟩, none), (⟨0, 0⟩, none), (⟨1, 0⟩, none),
    (⟨0, 1⟩, some (.terminal 2)), (⟨0, 0⟩, some (.terminal 2)), (⟨1, 0⟩, some (.terminal 2)),
    (⟨2, 1⟩, some (.nonTerminal 0)), (⟨0, 2⟩, some (.nonTerminal 0)), (⟨0, 3⟩, some (.terminal 3))]

/-- What is asked for in front of a terminal, with the latest symbol of the words that lead to the state. -/
def asked : List (Nat × Demand × Option Symbol) :=
  [(2, .shift 0, none), (0, .reduce 1, none), (3, .reduce 1, none),
    (2, .shift 0, some (.terminal 2)), (0, .reduce 1, some (.terminal 2)), (3, .reduce 1, some (.terminal 2)),
    (0, .accept, some (.nonTerminal 0)), (3, .shift 0, some (.nonTerminal 0)),
    (0, .reduce 0, some (.terminal 3)), (3, .reduce 0, some (.terminal 3))]

theorem asked_agree : ∀ first ∈ asked, ∀ other ∈ asked, first.1 = other.1 → first.2.2 = other.2.2 →
    first.2.1 = other.2.1 := by
  decide

/-- The symbols that lead on from the places. -/
def moves : List ((Core × Option Symbol) × Symbol) :=
  [((⟨2, 0⟩, none), .nonTerminal 0), ((⟨0, 1⟩, some (.terminal 2)), .nonTerminal 0),
    ((⟨0, 0⟩, none), .terminal 2), ((⟨0, 0⟩, some (.terminal 2)), .terminal 2),
    ((⟨0, 2⟩, some (.nonTerminal 0)), .terminal 3)]

theorem moves_of_next : ∀ place ∈ places, ∀ symbol ∈ cfg.nextSymbol? place.1,
    (place, symbol) ∈ moves ∧ (place.1.advance, some symbol) ∈ places := by
  decide

theorem begins_places : ∀ p ∈ cfg.productionsOf 0,
    (⟨p, 0⟩, none) ∈ places ∧ (⟨p, 0⟩, some (.terminal 2)) ∈ places := by
  decide

theorem complete_places : ∀ place ∈ places, cfg.isComplete place.1 →
    (cfg.resultOf? place.1.production = none ∧ (0, .accept, place.2) ∈ asked ∨
      (cfg.resultOf? place.1.production).isSome ∧ ∀ t ∈ [0, 3], (t, .reduce place.1.production, place.2) ∈ asked) := by
  decide

variable {word : List Symbol} {core : Core} {t n : Nat}

/-- The dot comes to stand in front of the non-terminal at the beginning, and behind the first letter. -/
theorem cases_nonTerminal {head : Option Symbol} (h : ((core, head), .nonTerminal n) ∈ moves) :
    n = 0 ∧ (core = ⟨2, 0⟩ ∧ head = none ∨ core = ⟨0, 1⟩ ∧ head = some (.terminal 2)) := by
  simp only [moves, List.mem_cons, Prod.mk.injEq, Symbol.nonTerminal.injEq, reduceCtorEq, and_false,
    List.not_mem_nil, or_false] at h
  rcases h with ⟨place, rfl⟩ | ⟨place, rfl⟩
  · exact ⟨rfl, .inl place⟩
  · exact ⟨rfl, .inr place⟩

theorem cases_terminal {head : Option Symbol} (h : ((core, head), .terminal t) ∈ moves) :
    (t, .shift 0, head) ∈ asked ∧ (t = 2 → core = ⟨0, 0⟩) := by
  simp only [moves, List.mem_cons, Prod.mk.injEq, Symbol.terminal.injEq, reduceCtorEq, and_false, false_or,
    List.not_mem_nil, or_false] at h
  rcases h with ⟨⟨rfl, rfl⟩, rfl⟩ | ⟨⟨rfl, rfl⟩, rfl⟩ | ⟨⟨rfl, rfl⟩, rfl⟩ <;> decide

theorem mem_places (h : cfg.Viable word core) : (core, word.head?) ∈ places := by
  induction h with
  | start => decide
  | expand h next hp ih =>
    obtain ⟨rfl, place⟩ := cases_nonTerminal (moves_of_next _ ih _ next).1
    rcases place with ⟨-, head⟩ | ⟨-, head⟩
    · exact head ▸ (begins_places _ hp).1
    · exact head ▸ (begins_places _ hp).2
  | advance h next ih => exact (moves_of_next _ ih _ next).2

theorem mem_moves {symbol : Symbol} (h : cfg.Viable word core) (next : cfg.nextSymbol? core = some symbol) :
    ((core, word.head?), symbol) ∈ moves := (moves_of_next _ (mem_places h) _ next).1

/-- Only the end and the second letter may follow, and only the end if the production has begun at the beginning. -/
theorem follows (h : cfg.Valid word core t) : t ∈ [0, 3] ∧ (word.length = core.dot → t = 0) := by
  have not_begun {word : List Symbol} (head : word.head? = some (.terminal 2)) : word.length ≠ 0 := by
    rw [Ne, List.length_eq_zero_iff, ← List.head?_eq_none_iff, head]
    exact nofun
  induction h with
  | start => exact ⟨List.mem_cons_self, fun _ => rfl⟩
  | first h next hp ht =>
    have starts := (Cfg.contains_firstOf_iff wellFormed).mp ht
    rcases (cases_nonTerminal (mem_moves h next)).2 with ⟨rfl, -⟩ | ⟨rfl, head⟩
    · cases starts
    · cases starts
      exact ⟨by decide, fun none => absurd none (not_begun head)⟩
  | pass h next hp nullable ih =>
    refine ⟨ih.1, fun none => ih.2 ?_⟩
    rcases (cases_nonTerminal (mem_moves h.viable next)).2 with ⟨rfl, -⟩ | ⟨rfl, head⟩
    · exact none
    · exact absurd none (not_begun head)
  | advance h next ih => exact ⟨ih.1, fun same => ih.2 (Nat.succ.inj same)⟩

section States
variable {mergeCores : Bool} {state : Collection.State} {i : Nat} {d : Demand}

theorem mem_asked (hs : (cfg.collection mergeCores)[i]? = some state) (spells : cfg.Spells word state.kernel)
    (hd : (t, d) ∈ cfg.demands state) : (t, d.aimless, word.head?) ∈ asked := by
  have automaton := Cfg.isAutomaton_collection wellFormed mergeCores
  have sound := automaton.sound i state hs
  have place {item : Item} (hm : item ∈ state.items.items) : (item.core, word.head?) ∈ places :=
    mem_places (spells.reached_iff.mp (sound.isClosure.has_iff.mp (state.items.has_iff.mpr ⟨item, hm, rfl⟩)))
  cases d with
  | shift target =>
    have leads := lookup_eq_some_of_mem sound.nodup (Cfg.shift_mem_demands.mp hd)
    obtain ⟨core, viable, next⟩ := (automaton.exists_lookup_iff hs spells).mp ⟨target, leads⟩
    exact (cases_terminal (mem_moves viable next)).1
  | reduce p =>
    obtain ⟨item, hm, rfl, complete, result, ht⟩ := Cfg.reduce_mem_demands.mp hd
    obtain ⟨other, -, valid⟩ := Cfg.exists_valid_of_allows wellFormed hs (ItemSet.allows_of_mem _ hm ht)
    rcases complete_places _ (place hm) complete with ⟨none, -⟩ | ⟨-, reduce⟩
    · rw [none] at result
      cases result
    · exact reduce t (follows valid).1
  | accept =>
    obtain ⟨rfl, item, hm, complete, result⟩ := Cfg.accept_mem_demands.mp hd
    rcases complete_places _ (place hm) complete with ⟨-, accept⟩ | ⟨some, -⟩
    · exact accept
    · rw [result] at some
      cases some

theorem agree : ∀ state ∈ cfg.collection mergeCores, Agree (cfg.demands state) := by
  intro state hm t d e hd he
  obtain ⟨i, hs⟩ := List.mem_iff_getElem?.mp hm
  obtain ⟨word, spells⟩ := (Cfg.explained_collection wellFormed hs).spelled
  have nodup := ((Cfg.isAutomaton_collection wellFormed mergeCores).sound i state hs).nodup
  exact Cfg.eq_of_aimless_eq nodup hd he
    (asked_agree _ (mem_asked hs spells hd) _ (mem_asked hs spells he) rfl rfl)

end States

theorem isLiteral : (nest look).IsLiteral := ⟨rfl, by simp [nest, TerminalKind.IsLiteral]⟩

theorem exists_toParser (look : SyntaxError → Nat) (options : ParserOptions) :
    ∃ parser, ((nest look).toParser options).run.value = .ok parser := by
  have agree : ∀ state ∈ (nest look).cfg.collection options.mergeCores, Agree ((nest look).cfg.demands state) := agree
  exact isLiteral.exists_toParser (Grammar.exists_table_of_agree agree)

/-! ### Behind one letter and behind two -/

theorem viable_begin : cfg.Viable [] ⟨0, 0⟩ := .expand .start rfl (by decide)

theorem viable_first : cfg.Viable [.terminal 2] ⟨0, 1⟩ := .advance viable_begin rfl

theorem viable_nested : cfg.Viable [.terminal 2] ⟨0, 0⟩ := .expand viable_first rfl (by decide)

theorem viable_second : cfg.Viable [.terminal 2, .terminal 2] ⟨0, 1⟩ := .advance viable_nested rfl

/-- Behind a second letter the other one may follow. -/
theorem valid_second : cfg.Valid [.terminal 2, .terminal 2] ⟨0, 1⟩ 3 :=
  have inside : cfg.Valid [.terminal 2] ⟨0, 0⟩ 3 :=
    .first viable_first rfl (by decide) ((Cfg.contains_firstOf_iff wellFormed).mpr .terminal)
  .advance inside rfl

theorem kernelCore_iff (viable : cfg.Viable word ⟨0, 0⟩) :
    cfg.KernelCore (.terminal 2 :: word) core ↔ core = ⟨0, 1⟩ := by
  constructor
  · rintro ⟨old, viable, next, rfl⟩
    rw [(cases_terminal (mem_moves viable next)).2 rfl]
    rfl
  · rintro rfl
    exact ⟨_, viable, rfl, rfl⟩

variable {i j : Nat}

/-- Merged, the states behind one letter and behind two are the same. -/
theorem merged_eq (one : Cfg.stateAfter (cfg.collection true) [.terminal 2] = some i)
    (two : Cfg.stateAfter (cfg.collection true) [.terminal 2, .terminal 2] = some j) : i = j := by
  have automaton := Cfg.isAutomaton_collection wellFormed true
  obtain ⟨a, ha, first⟩ := automaton.follows one
  obtain ⟨b, hb, second⟩ := automaton.follows two
  refine Cfg.eq_of_has_iff wellFormed ha hb fun core => ?_
  rw [first.spells core, second.spells core, kernelCore_iff viable_begin, kernelCore_iff viable_nested]

/-- Kept apart, they are not. -/
theorem canonical_ne (one : Cfg.stateAfter (cfg.collection false) [.terminal 2] = some i)
    (two : Cfg.stateAfter (cfg.collection false) [.terminal 2, .terminal 2] = some j) : i ≠ j := by
  rintro rfl
  obtain ⟨a, ha, -⟩ := (Cfg.isAutomaton_collection wellFormed false).follows one
  have allows := (Cfg.allows_iff_valid wellFormed two ha).mpr valid_second
  cases (follows ((Cfg.allows_iff_valid wellFormed one ha).mp allows)).2 rfl

/-! ### Two letters of either kind -/

/-- A letter with its place. -/
def letter (t : Nat) (text : String) (start : UInt32) : Token (List Nat) := ⟨t, text, ⟨start, start + 1⟩, []⟩

/-- The text aabb, and the end of the input behind it. -/
def source : TokenStream (List Nat) :=
  .ofList [.ok (letter 2 "a" 0), .ok (letter 2 "a" 1), .ok (letter 3 "b" 2), .ok (letter 3 "b" 3)]

theorem ends_source : source.Ends := ⟨4, fun token read => by cases read; rfl⟩

/-- The tree of a text inside of a pair of letters. -/
def around (start stop : UInt32) (inside : (nest look).Tree (.nonTerminal 0)) : (nest look).Tree (.nonTerminal 0) :=
  .node 0 ⟨0, [.terminal 2, .nonTerminal 0, .terminal 3], .noting look, none⟩ rfl default
    (.cons (.leaf (letter 2 "a" start)) (.cons inside (.cons (.leaf (letter 3 "b" stop)) .nil)))

/-- The tree of the text aabb. -/
def tree (look : SyntaxError → Nat) : (nest look).Tree (.nonTerminal 0) :=
  around 0 3 (around 1 2 (.node 1 ⟨0, [], .noting look, none⟩ rfl default .nil))

theorem begins_source : source.Begins ((tree look).yield ++ [⟨endTerminal, "", ⟨0, 0⟩, default⟩]) := by
  intro i token hi
  match i with
  | 0 | 1 | 2 | 3 | 4 => exact congrArg Except.ok (Option.some.inj hi)

/-- The value of the text tells the states in which its productions have begun. -/
theorem valueIn_tree (machine : Machine (List Nat)) {states : List Collection.State}
    (one : Cfg.stateAfter states [.terminal 2] = some i)
    (two : Cfg.stateAfter states [.terminal 2, .terminal 2] = some j) :
    (tree look).valueIn machine states 0 = [0, i, j].map fun s => look (machine.fallbackError s) := by
  have first := nextState_eq_of_stateAfter rfl one
  have second := nextState_eq_of_stateAfter one two
  subst first
  subst second
  rfl

end nest

variable [Inhabited α]

/-- **Merging does not show in what a parser comes to.**  If a grammar without precedence has a parser with merged
cores, it has one in which they are kept apart.  Without recovery both come to a result on all tokens that end: both to
the value of one tree, both to a syntax error at the same token, or both to the same error of another kind.  The values
are equal unless an action in the tree looks at the number of a state. -/
theorem exists_canonical {grammar : Grammar α} (declared : grammar.Declared) (noPrecedence : grammar.HasNoPrecedence)
    (noEnd : grammar.NeverMentionsEnd) {options : ParserOptions} (merged : options.mergeCores = true)
    {parser : Parser α} (compiled : (grammar.toParser options).run.value = .ok parser) :
    ∃ canonical, (grammar.toParser { options with mergeCores := false }).run.value = .ok canonical ∧
      (options.errorRecovery = false → ∀ source : TokenStream α, source.Ends → ∃ result result',
        parser.machine.Yields source result ∧ canonical.machine.Yields source result' ∧
          grammar.SameResult source result result') := by
  obtain ⟨canonical, compiled'⟩ := Grammar.exists_unmerged declared noPrecedence merged compiled
  obtain ⟨table, -, machine⟩ := Grammar.table_of_toParser compiled
  obtain ⟨table', -, machine'⟩ := Grammar.table_of_toParser compiled'
  refine ⟨canonical, compiled', fun noRecovery source ends => ?_⟩
  have decides := Grammar.decides_of_toParser declared noPrecedence compiled
  have decides' := Grammar.decides_of_toParser declared noPrecedence compiled'
  refine Grammar.exists_sameResult decides decides' ?_ ?_ ?_ noEnd ends
  · rw [machine, machine']
    rfl
  · rw [machine]
    exact noRecovery
  · rw [machine']
    exact noRecovery

theorem exists_canonical_nest : ∃ merged canonical : Parser (List Nat),
    ((nest fun e => e.text.length).toParser { errorRecovery := false }).run.value = .ok merged ∧
    ((nest fun e => e.text.length).toParser { errorRecovery := false, mergeCores := false }).run.value = .ok canonical ∧
    ∃ v, merged.machine.Yields nest.source (.ok v) ∧ canonical.machine.Yields nest.source (.ok v) := by
  obtain ⟨merged, compiled⟩ := nest.exists_toParser (fun e => e.text.length) { errorRecovery := false }
  obtain ⟨canonical, compiled', same⟩ :=
    exists_canonical nest.declared nest.hasNoPrecedence nest.neverMentionsEnd rfl compiled
  obtain ⟨result, result', yields, yields', same⟩ := same rfl nest.source nest.ends_source
  refine ⟨merged, canonical, compiled, compiled', ?_⟩
  have realizes := Grammar.realizes_of_toParser nest.declared nest.hasNoPrecedence compiled
  cases yields.unique ((nest.tree _).yields realizes rfl nest.begins_source)
  cases same with
  | ok tree _ _ same =>
    have ignore : ∀ production ∈ (nest fun e => e.text.length).productions, production.action.IgnoresState := by
      intro production hp
      simp only [nest, List.mem_cons, List.not_mem_nil, or_false] at hp
      rcases hp with rfl | rfl <;> exact fun _ _ _ => rfl
    cases same (tree.ignoresStates ignore)
    exact ⟨_, yields, yields'⟩

/-- **Merging shows in values that tell the numbers of states.**  Behind one letter and behind two the merged parser is
in the same state, the other one is not. -/
theorem merging_shows :
    (nest SyntaxError.state).Declared ∧ (nest SyntaxError.state).HasNoPrecedence ∧
    (nest SyntaxError.state).NeverMentionsEnd ∧ nest.source.Ends ∧ ∃ merged canonical : Parser (List Nat),
      ((nest SyntaxError.state).toParser { errorRecovery := false }).run.value = .ok merged ∧
      ((nest SyntaxError.state).toParser { errorRecovery := false, mergeCores := false }).run.value = .ok canonical ∧
      ∃ v v', merged.machine.Yields nest.source (.ok v) ∧ canonical.machine.Yields nest.source (.ok v') ∧ v ≠ v' := by
  refine ⟨nest.declared, nest.hasNoPrecedence, nest.neverMentionsEnd, nest.ends_source, ?_⟩
  obtain ⟨merged, compiled⟩ := nest.exists_toParser SyntaxError.state { errorRecovery := false }
  obtain ⟨canonical, compiled'⟩ :=
    nest.exists_toParser SyntaxError.state { errorRecovery := false, mergeCores := false }
  refine ⟨merged, canonical, compiled, compiled', ?_⟩
  have realizes := Grammar.realizes_of_toParser nest.declared nest.hasNoPrecedence compiled
  have realizes' := Grammar.realizes_of_toParser nest.declared nest.hasNoPrecedence compiled'
  refine ⟨_, _, (nest.tree _).yields realizes rfl nest.begins_source,
    (nest.tree _).yields realizes' rfl nest.begins_source, ?_⟩
  obtain ⟨i, -, one, -⟩ := (Cfg.isAutomaton_collection nest.wellFormed true).exists_state nest.viable_first
  obtain ⟨j, -, two, -⟩ := (Cfg.isAutomaton_collection nest.wellFormed true).exists_state nest.viable_second
  obtain ⟨k, -, one', -⟩ := (Cfg.isAutomaton_collection nest.wellFormed false).exists_state nest.viable_first
  obtain ⟨l, -, two', -⟩ := (Cfg.isAutomaton_collection nest.wellFormed false).exists_state nest.viable_second
  intro equal
  have values : [0, i, j] = [0, k, l] :=
    (nest.valueIn_tree merged.machine one two).symm.trans (equal.trans (nest.valueIn_tree canonical.machine one' two'))
  cases values
  exact nest.canonical_ne one' two' (nest.merged_eq one two)

end TableParsing
